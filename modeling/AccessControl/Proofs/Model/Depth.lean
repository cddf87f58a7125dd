import AccessControl.Proofs.Model.Priority
import AccessControl.Proofs.Model.Rows
import Mathlib
/-!
# Rows in the order of their subjects

The depth of a name is the length of the longest chain of links upwards from it.  For a name from which no
chain comes to a cycle, the level that the sort computes is this depth, whatever was asked for before it:
the names that a search has come through are distinct, so its fuel lasts, the name is not one of them, and
the levels that are remembered of such names are right.  For other names the level depends on where their
cycle was entered.

So after the sort no row of such a subject comes after one whose subject is less deep, and such rows that
are in order already keep it.

    below no cycle, h.levelOf known name is the longest chain          (`isLevel_levelOf`)
    d.sortBySubject puts the deepest subjects first                    (`ranked_sortBySubject`)
    and keeps the order of rows that are in order                      (`filter_sortBySubject`)
    m.sortBySubject does so for all policy rows                        (`ranked_sortBySubject`)
-/

namespace AccessControl

open Relation

/-! ## Chains of links -/

section

variable {link : String → String → Prop}

/-- A chain of so many links leads upwards from a name. -/
inductive HasChain (link : String → String → Prop) : Nat → String → Prop where
  | top (name : String) : HasChain link 0 name
  | up {n : Nat} {child parent : String} (hlink : link child parent) (h : HasChain link n parent) :
      HasChain link (n + 1) child

/-- A name is deeper than another one when a longer chain leads upwards from it. -/
def Deeper (link : String → String → Prop) (name other : String) : Prop :=
  ∃ n, HasChain link n name ∧ ¬ HasChain link n other

/-- No links form a cycle. -/
def Loopless (link : String → String → Prop) : Prop := ∀ name, ¬ TransGen link name name

/-- No chain upwards from a name comes to a cycle. -/
def Grounded (link : String → String → Prop) (name : String) : Prop :=
  ∀ above, ReflTransGen link name above → ¬ TransGen link above above

theorem hasChain_succ_iff {n : Nat} {name : String} :
    HasChain link (n + 1) name ↔ ∃ parent, link name parent ∧ HasChain link n parent := by
  constructor
  · rintro (_ | ⟨hlink, h⟩)
    exact ⟨_, hlink, h⟩
  · rintro ⟨parent, hlink, h⟩
    exact .up hlink h

theorem Loopless.grounded (h : Loopless link) (name : String) : Grounded link name :=
  fun above _ => h above

theorem Grounded.parent {name parent : String} (h : Grounded link name) (hlink : link name parent) :
    Grounded link parent :=
  fun above habove => h above (.head hlink habove)

/-- One link between two names is no cycle. -/
theorem loopless_of_single {child parent : String}
    (h : ∀ a b, link a b → a = child ∧ b = parent) (hne : child ≠ parent) : Loopless link := by
  have hends : ∀ a b, TransGen link a b → a = child ∧ b = parent := by
    intro a b hab
    induction hab with
    | single hlink => exact h _ _ hlink
    | tail _ hlink ih => exact ⟨ih.1, (h _ _ hlink).2⟩
  intro name hloop
  obtain ⟨rfl, hparent⟩ := hends name name hloop
  exact hne hparent

/-- A chain from a name to one above it can be put in front of every chain from there. -/
theorem HasChain.of_transGen {name above : String} (h : TransGen link name above) {n : Nat}
    (hchain : HasChain link n above) : ∃ k, n < k ∧ HasChain link k name := by
  induction h using TransGen.head_induction_on with
  | single hlink => exact ⟨n + 1, Nat.lt_succ_self n, .up hlink hchain⟩
  | head hlink _ ih =>
    obtain ⟨k, hk, hup⟩ := ih
    exact ⟨k + 1, Nat.lt_succ_of_lt hk, .up hlink hup⟩

end

namespace Hierarchy

variable {h : Hierarchy}

/-- A name and one that it inherits. -/
def Link (h : Hierarchy) (child parent : String) : Prop := (child, parent) ∈ h

/-- The longest chain of links from a name has so many links. -/
def IsLevel (h : Hierarchy) (name : String) (n : Nat) : Prop := ∀ k, HasChain h.Link k name ↔ k ≤ n

/-- The levels that are remembered of names below no cycle are right. -/
def Remembers (h : Hierarchy) (known : Table Nat) : Prop :=
  ∀ name n, Grounded h.Link name → known.find name = some n → h.IsLevel name n

theorem remembers_nil : h.Remembers [] := fun _ _ _ hn => by simp at hn

theorem mem_parents (name parent : String) : parent ∈ h.parents name ↔ h.Link name parent := by
  unfold parents Link
  simp only [List.mem_filterMap, Option.ite_none_right_eq_some, Option.some.injEq]
  constructor
  · rintro ⟨⟨child, other⟩, hmem, rfl, rfl⟩
    exact hmem
  · intro hmem
    exact ⟨(name, parent), hmem, rfl, rfl⟩

/-- A level that is not greater is that of a name that is not deeper. -/
theorem IsLevel.not_deeper_iff {name other : String} {n k : Nat} (hname : h.IsLevel name n)
    (hother : h.IsLevel other k) : ¬ Deeper h.Link name other ↔ n ≤ k := by
  constructor
  · intro hnot
    by_contra hlt
    exact hnot ⟨n, (hname n).2 (Nat.le_refl _), fun hchain => hlt ((hother n).1 hchain)⟩
  · rintro hle ⟨i, hi, hnone⟩
    exact hnone ((hother i).2 (Nat.le_trans ((hname i).1 hi) hle))

/-- A name is deeper than all that it inherits. -/
theorem IsLevel.deeper {name above : String} {n : Nat} (habove : h.IsLevel above n)
    (hup : TransGen h.Link name above) : Deeper h.Link name above := by
  obtain ⟨k, hk, hchain⟩ := HasChain.of_transGen hup ((habove n).2 (Nat.le_refl _))
  exact ⟨k, hchain, fun hshort => absurd ((habove k).1 hshort) (by omega)⟩

/-! ## Levels -/

/-- A search that has come to a name through others, all different, which are below it.  There is fuel for
every link that was not gone up. -/
structure Comes (h : Hierarchy) (fuel : Nat) (visiting : List String) (name : String) : Prop where
  nodup : visiting.Nodup
  below : ∀ other ∈ visiting, TransGen h.Link other name
  fuel : h.length < fuel + visiting.length

theorem Comes.length_le {fuel : Nat} {visiting : List String} {name : String}
    (hs : h.Comes fuel visiting name) : visiting.length ≤ h.length := by
  have hsubset : visiting ⊆ h.map (·.1) := by
    intro other hmem
    obtain ⟨above, hlink, -⟩ := TransGen.head'_iff.1 (hs.below other hmem)
    exact List.mem_map_of_mem (f := (·.1)) hlink
  have hle := (hs.nodup.subperm hsubset).length_le
  rwa [List.length_map] at hle

theorem Comes.parent {fuel : Nat} {visiting : List String} {name parent : String}
    (hs : h.Comes (fuel + 1) visiting name) (hnew : name ∉ visiting) (hlink : h.Link name parent) :
    h.Comes fuel (name :: visiting) parent where
  nodup := List.nodup_cons.2 ⟨hnew, hs.nodup⟩
  below := by
    rw [List.forall_mem_cons]
    exact ⟨.single hlink, fun other hmem => (hs.below other hmem).tail hlink⟩
  fuel := by
    have hfuel := hs.fuel
    rw [List.length_cons]
    omega

/-- With so much fuel the level of a name below no cycle is right, and so are those remembered after it. -/
def RightAt (h : Hierarchy) (fuel : Nat) : Prop :=
  ∀ (visiting : List String) (known : Table Nat) (name : String), h.Remembers known →
    h.Comes fuel visiting name →
    (Grounded h.Link name → h.IsLevel name (h.level fuel visiting known name).1) ∧
      h.Remembers (h.level fuel visiting known name).2

theorem RightAt.above {fuel : Nat} (hright : h.RightAt fuel) (visiting : List String)
    (known : Table Nat) (names : List String) (hknown : h.Remembers known)
    (hcomes : ∀ name ∈ names, h.Comes fuel visiting name) :
    ((∀ name ∈ names, Grounded h.Link name) →
      ∀ k, k < (h.levelAbove fuel visiting known names).1 ↔ ∃ name ∈ names, HasChain h.Link k name) ∧
      h.Remembers (h.levelAbove fuel visiting known names).2 := by
  induction names generalizing known with
  | nil =>
    rw [levelAbove]
    exact ⟨by simp, hknown⟩
  | cons name rest ih =>
    rw [List.forall_mem_cons] at hcomes
    obtain ⟨hname, hnext⟩ := hright visiting known name hknown hcomes.1
    obtain ⟨hrest, hlast⟩ := ih (h.level fuel visiting known name).2 hnext hcomes.2
    rw [levelAbove]
    refine ⟨fun hgrounded k => ?_, hlast⟩
    rw [List.forall_mem_cons] at hgrounded
    dsimp only
    rw [List.exists_mem_cons_iff, hname hgrounded.1 k, ← hrest hgrounded.2 k]
    omega

theorem rightAt (fuel : Nat) : h.RightAt fuel := by
  induction fuel with
  | zero =>
    -- all links would have been gone up, and one more
    intro visiting known name _ hs
    exact absurd hs.fuel (by have := hs.length_le; omega)
  | succ fuel ih =>
    intro visiting known name hknown hs
    rw [level]
    split
    · next n hn => exact ⟨fun hgrounded => hknown name n hgrounded hn, hknown⟩
    · split
      · -- a name on its own chain is above itself
        next hvisiting => exact ⟨fun hgrounded => absurd (hs.below name hvisiting)
          (hgrounded name .refl), hknown⟩
      · next hnew =>
        have hlinks : ∀ parent ∈ h.parents name, h.Link name parent :=
          fun parent hparent => (mem_parents name parent).1 hparent
        obtain ⟨habove, hnext⟩ := ih.above (name :: visiting) known (h.parents name) hknown
          fun parent hparent => hs.parent hnew (hlinks parent hparent)
        have hlevel : Grounded h.Link name → h.IsLevel name
            (h.levelAbove fuel (name :: visiting) known (h.parents name)).1 := by
          intro hgrounded k
          cases k with
          | zero => exact ⟨fun _ => Nat.zero_le _, fun _ => .top name⟩
          | succ k =>
            rw [hasChain_succ_iff, Nat.succ_le_iff,
              habove (fun parent hparent => hgrounded.parent (hlinks parent hparent)) k]
            simp only [mem_parents]
        refine ⟨hlevel, fun other n hgrounded hn => ?_⟩
        dsimp only at hn
        rw [Table.find_put] at hn
        split at hn
        · next heq =>
          subst heq
          rw [← Option.some.inj hn]
          exact hlevel hgrounded
        · exact hnext other n hgrounded hn

theorem isLevel_levelOf {known : Table Nat} (hknown : h.Remembers known) (name : String) :
    (Grounded h.Link name → h.IsLevel name (h.levelOf known name).1) ∧
      h.Remembers (h.levelOf known name).2 :=
  rightAt (h.length + 2) [] known name hknown
    ⟨List.nodup_nil, by simp, by rw [List.length_nil]; omega⟩

/-- Every name below no cycle has a level. -/
theorem exists_isLevel {name : String} (hgrounded : Grounded h.Link name) : ∃ n, h.IsLevel name n :=
  ⟨_, (isLevel_levelOf remembers_nil name).1 hgrounded⟩

theorem isLevel_withLevels (subject : Row → String) {known : Table Nat} (hknown : h.Remembers known)
    (rows : List Row) :
    (∀ e ∈ (h.withLevels subject known rows).1, Grounded h.Link (subject e.2) →
      h.IsLevel (subject e.2) e.1) ∧ h.Remembers (h.withLevels subject known rows).2 := by
  induction rows generalizing known with
  | nil => exact ⟨by simp [withLevels], hknown⟩
  | cons row rest ih =>
    obtain ⟨hrow, hnext⟩ := isLevel_levelOf hknown (subject row)
    obtain ⟨hrest, hlast⟩ := ih hnext
    rw [withLevels]
    refine ⟨?_, hlast⟩
    dsimp only
    rw [List.forall_mem_cons]
    exact ⟨hrow, hrest⟩

end Hierarchy

/-! ## Definitions -/

namespace Definition

/-- The deepest subjects come first. -/
def BySubject (d : Definition) (link : String → String → Prop) : Prop :=
  d.rows.Pairwise fun a b => ¬ Deeper link (d.subject b) (d.subject a)

/-- The deepest subjects come first as far as they are below no cycle. -/
def Ranked (d : Definition) (link : String → String → Prop) : Prop :=
  d.rows.Pairwise fun a b => Grounded link (d.subject a) → Grounded link (d.subject b) →
    ¬ Deeper link (d.subject b) (d.subject a)

theorem ranked_of_nil {d : Definition} (h : d.rows = []) (link : String → String → Prop) :
    d.Ranked link := by
  unfold Ranked
  rw [h]
  exact List.Pairwise.nil

theorem Ranked.bySubject {d : Definition} {link : String → String → Prop} (h : d.Ranked link)
    (hloop : Loopless link) : d.BySubject link :=
  h.imp fun hnot => hnot (hloop.grounded _) (hloop.grounded _)

theorem subject_eq {d k : Definition} (h : d.bare = k.bare) : d.subject = k.subject := by
  unfold subject fieldIndex
  rw [key_eq h, fields_eq h]

variable (d : Definition)

/-- Sorting changes the order of the rows only. -/
theorem sortBySubject_eq {h : Hierarchy} {known : Table Nat} {rows : List Row}
    (hrows : (d.sortBySubject h known).1.rows = rows) :
    (d.sortBySubject h known).1 = { d with rows } := by
  rw [← hrows]
  unfold sortBySubject
  split <;> rfl

variable {h : Hierarchy} {known : Table Nat}

theorem remembers_sortBySubject (hknown : h.Remembers known) :
    h.Remembers (d.sortBySubject h known).2 := by
  unfold sortBySubject
  split
  · exact hknown
  · exact (Hierarchy.isLevel_withLevels d.subject hknown d.rows).2

/-- Rows in the order of their levels keep their order. -/
theorem filter_sortByLevel {levels : List (Nat × Row)} {keep : Row → Bool}
    (h : (levels.filter fun e => keep e.2).Pairwise fun e f => f.1 ≤ e.1) :
    (sortByKey (levels.map fun e => (-(e.1 : Int), e.2))).filter keep =
      (levels.map (·.2)).filter keep := by
  have hkeys : ((levels.map fun e => (-(e.1 : Int), e.2)).filter fun a => keep a.2).Pairwise
      fun a b => a.1 ≤ b.1 := by
    rw [List.filter_map, List.pairwise_map]
    exact h.imp fun hle => Int.neg_le_neg (Int.ofNat_le.2 hle)
  rw [filter_sortByKey hkeys, List.map_map]
  rfl

/-- Sorting puts the deepest subjects first that are below no cycle. -/
theorem ranked_sortBySubject (hknown : h.Remembers known) :
    (d.sortBySubject h known).1.Ranked h.Link := by
  unfold Ranked
  rw [subject_eq (d.bare_sortBySubject h known)]
  unfold sortBySubject
  split
  · next hfew =>
    match hrows : d.rows with
    | [] => exact List.Pairwise.nil
    | [row] => exact List.pairwise_singleton _ row
    | _ :: _ :: _ => exact absurd hfew (by simp [hrows])
  · have hlevels := (Hierarchy.isLevel_withLevels d.subject hknown d.rows).1
    refine pairwise_sortByKey fun a ha b hb hle => ?_
    obtain ⟨e, he, rfl⟩ := List.mem_map.1 ha
    obtain ⟨f, hf, rfl⟩ := List.mem_map.1 hb
    intro hgrounded hother
    exact ((hlevels f hf hother).not_deeper_iff (hlevels e he hgrounded)).2 (by omega)

/-- Rows below no cycle that are in the order of their subjects keep their order. -/
theorem filter_sortBySubject (hknown : h.Remembers known) {keep : Row → Bool}
    (hgrounded : ∀ row ∈ d.rows, keep row = true → Grounded h.Link (d.subject row))
    (hsorted : (d.rows.filter keep).Pairwise fun a b => ¬ Deeper h.Link (d.subject b) (d.subject a)) :
    (d.sortBySubject h known).1.rows.filter keep = d.rows.filter keep := by
  unfold sortBySubject
  split
  · rfl
  · have hlevels := (Hierarchy.isLevel_withLevels d.subject hknown d.rows).1
    have hrows := h.rows_withLevels d.subject known d.rows
    dsimp only
    generalize (h.withLevels d.subject known d.rows).1 = levels at hlevels hrows ⊢
    rw [← hrows] at hgrounded hsorted ⊢
    rw [List.filter_map, List.pairwise_map] at hsorted
    refine filter_sortByLevel (hsorted.imp_of_mem fun {e f} he hf hnot => ?_)
    have hlevel : ∀ e ∈ levels.filter fun e => keep e.2, h.IsLevel (d.subject e.2) e.1 := by
      intro e he
      obtain ⟨hmem, hkeep⟩ := List.mem_filter.1 he
      exact hlevels e hmem (hgrounded e.2 (List.mem_map_of_mem hmem) hkeep)
    exact ((hlevel f hf).not_deeper_iff (hlevel e he)).1 hnot

end Definition

/-! ## Models -/

namespace Model

/-- The policy rows of every definition are in the order of their subjects, when no role rows form a
cycle. -/
def BySubject (m : Model) : Prop := Loopless m.hierarchy.Link →
  ∀ name d, m.find? "p" name = some d → d.BySubject m.hierarchy.Link

/-- The policy rows of every definition are in the order of their subjects as far as these are below no
cycle. -/
def Ranked (m : Model) : Prop := ∀ name d, m.find? "p" name = some d → d.Ranked m.hierarchy.Link

theorem Ranked.bySubject {m : Model} (h : m.Ranked) : m.BySubject :=
  fun hloop name d hd => (h name d hd).bySubject hloop

theorem hierarchy_of_find? {m k : Model} (h : k.find? "g" "g" = m.find? "g" "g") :
    k.hierarchy = m.hierarchy := by
  unfold hierarchy rows
  rw [h]

theorem hierarchy_sortBySubject (m : Model) : m.sortBySubject.hierarchy = m.hierarchy :=
  hierarchy_of_find? (m.find?_sortBySubject_of_ne (by decide) "g")

/-- A policy definition is sorted with levels that are right below no cycle. -/
theorem find?_p_sorted (m : Model) (name : String) : ∃ levels, m.hierarchy.Remembers levels ∧
    m.sortBySubject.find? "p" name =
      (m.find? "p" name).map fun d => (d.sortBySubject m.hierarchy levels).1 :=
  m.find?_p_sortBySubject m.hierarchy.Remembers Hierarchy.remembers_nil
    (fun d _ hknown => d.remembers_sortBySubject hknown) name

/-- Sorting puts the deepest subjects first, whatever order the rows had. -/
theorem ranked_sortBySubject (m : Model) : m.sortBySubject.Ranked := by
  intro name d hd
  obtain ⟨levels, hlevels, hfind⟩ := m.find?_p_sorted name
  rw [hfind] at hd
  obtain ⟨old, -, rfl⟩ := Option.map_eq_some_iff.1 hd
  rw [hierarchy_sortBySubject]
  exact old.ranked_sortBySubject hlevels

/-! ## A member of a role in a domain -/

/-- Rules for a role and its member in one domain, the one for the role first. -/
def memberRules : Definition := (Definition.make "p" "p" "sub, dom, act").insertAll
  [["staff", "x", "read"], ["ann", "x", "write"], ["ann", "x", "read"]]

/-- These rules, and the role of the member. -/
def memberModel : Model :=
  ⟨[("p", [("p", memberRules)]),
    ("g", [("g", (Definition.make "g" "g" "_, _, _").insertAll [["ann", "staff", "x"]])])]⟩

theorem loopless_memberModel : Loopless memberModel.hierarchy.Link :=
  loopless_of_single (fun _ _ hlink => Prod.mk.inj (List.mem_singleton.1 hlink)) (by decide)

theorem sortBySubject_memberModel : memberModel.sortBySubject.find? "p" "p" =
    some { memberRules with
      rows := [["ann", "x", "write"], ["ann", "x", "read"], ["staff", "x", "read"]] } := by
  have hsort : memberModel.sortBySubject.find? "p" "p" =
      some (memberRules.sortBySubject memberModel.hierarchy []).1 := rfl
  rw [hsort]
  exact congrArg some (memberRules.sortBySubject_eq (by cbv))

/-! ## Top theorem (proved from the lemmas above) -/

/-- **Subjects before what they inherit.**  When no role rows form a cycle, every name has a level, the
length of the longest chain of role rows upwards from it, and sorting by subjects changes nothing but the
order of policy rows.  Those of every definition are put in the order of falling levels, rows of one level
keep their order, and so no row stands before one whose subject inherits its own. -/
theorem sortBySubject_by_level (m : Model) (hloop : Loopless m.hierarchy.Link) :
    ∃ level : String → Nat, (∀ name, m.hierarchy.IsLevel name (level name)) ∧
      (∀ sec, sec ≠ "p" → ∀ name, m.sortBySubject.find? sec name = m.find? sec name) ∧
      ∀ name d, m.find? "p" name = some d → ∃ rows,
        m.sortBySubject.find? "p" name = some { d with rows } ∧ rows.Perm d.rows ∧
        (rows.Pairwise fun a b => level (d.subject b) ≤ level (d.subject a)) ∧
        (∀ n, (rows.filter fun row => level (d.subject row) = n) =
          d.rows.filter fun row => level (d.subject row) = n) ∧
        rows.Pairwise fun a b => ¬ TransGen m.hierarchy.Link (d.subject b) (d.subject a) := by
  choose level hlevel using fun name => Hierarchy.exists_isLevel (hloop.grounded name)
  refine ⟨level, hlevel, fun sec hsec => m.find?_sortBySubject_of_ne hsec, fun name d hd => ?_⟩
  obtain ⟨known, hknown, hfind⟩ := m.find?_p_sorted name
  have hdeepest := (d.ranked_sortBySubject hknown).bySubject hloop
  unfold Definition.BySubject at hdeepest
  rw [Definition.subject_eq (d.bare_sortBySubject m.hierarchy known)] at hdeepest
  refine ⟨(d.sortBySubject m.hierarchy known).1.rows, ?_, d.rows_sortBySubject m.hierarchy known,
    hdeepest.imp ?_, fun n => ?_, hdeepest.imp ?_⟩
  · rw [hfind, hd, Option.map_some]
    exact congrArg some (d.sortBySubject_eq rfl)
  · exact ((hlevel _).not_deeper_iff (hlevel _)).1
  · refine d.filter_sortBySubject hknown (fun _ _ _ => hloop.grounded _) ?_
    refine List.pairwise_of_forall_mem_list fun a ha b hb => ?_
    have hsame : level (d.subject b) = level (d.subject a) :=
      (of_decide_eq_true (List.mem_filter.1 hb).2).trans (of_decide_eq_true (List.mem_filter.1 ha).2).symm
    exact ((hlevel _).not_deeper_iff (hlevel _)).2 (Nat.le_of_eq hsame)
  · exact fun hnot hup => hnot ((hlevel _).deeper hup)

/-- The rules for the member come first, in the order in which they were. -/
theorem sortBySubject_by_level_member : ∃ rows,
    memberModel.sortBySubject.find? "p" "p" = some { memberRules with rows } ∧
      rows = [["ann", "x", "write"], ["ann", "x", "read"], ["staff", "x", "read"]] ∧
      rows.Pairwise fun a b =>
        ¬ TransGen memberModel.hierarchy.Link (memberRules.subject b) (memberRules.subject a) := by
  obtain ⟨level, -, -, hsorted⟩ := sortBySubject_by_level memberModel loopless_memberModel
  obtain ⟨rows, hfind, -, -, -, hbefore⟩ := hsorted "p" memberRules rfl
  have hrows := hfind.symm.trans sortBySubject_memberModel
  exact ⟨rows, hfind, congrArg Definition.rows (Option.some.inj hrows), hbefore⟩

end Model

end AccessControl
