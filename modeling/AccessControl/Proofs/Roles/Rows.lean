import AccessControl.Model.Links
import AccessControl.Proofs.Roles.Managers
/-!
# The links of rows

A row of a role definition is a link; rows of at most three fields are told by their links.  Changing
the links of rows keeps a manager sound, and a batch does what its rows do one by one or stops at a row
and takes those before it back.

    linkOf? row = linkOf? other → row = other   for rows of one length (`eq_of_linkOf?`)
    all rows go through → k holds the links of m and of the rows       (`Sound.link_applyRows`)
    m.Sound → (m.applyBatch change rows).2.Sound                       (`Sound.applyBatch`)
-/

namespace AccessControl

/-- The domain key, the name and the role of the link of a row. -/
def linkOf? : Row → Option (String × String × String)
  | name :: role :: rest => some (RoleManager.domainKey rest.head?, name, role)
  | _ => none

/-- Whether one of some rows has a link. -/
def RowsLink (rows : List Row) (key name role : String) : Prop :=
  ∃ row ∈ rows, linkOf? row = some (key, name, role)

/-- Whether the links of some rows form no cycle in any domain. -/
def RowsAcyclic (rows : List Row) : Prop :=
  ∀ key name, ¬ Relation.TransGen (RowsLink rows key) name name

/-- What a change makes of a link that is held or not, and is one of the changed ones or not. -/
def LinkChange.On (change : LinkChange) (held mine : Prop) : Prop :=
  match change with
  | .add => held ∨ mine
  | .remove => held ∧ ¬ mine

/-! ## Rows and their links -/

theorem linkOf?_eq_some_iff (row : Row) (key name role : String) :
    linkOf? row = some (key, name, role) ↔
      ∃ rest, row = name :: role :: rest ∧ RoleManager.domainKey rest.head? = key := by
  match row with
  | [] => simp [linkOf?]
  | [_] => simp [linkOf?]
  | a :: b :: rest =>
    simp only [linkOf?, Option.some.injEq, Prod.mk.injEq, List.cons.injEq]
    constructor
    · rintro ⟨hkey, rfl, rfl⟩
      exact ⟨rest, ⟨rfl, rfl, rfl⟩, hkey⟩
    · rintro ⟨_, ⟨rfl, rfl, rfl⟩, hkey⟩
      exact ⟨hkey, rfl, rfl⟩

theorem linkOf?_isSome {row : Row} (h : 2 ≤ row.length) : ∃ l, linkOf? row = some l := by
  match row, h with
  | _ :: _ :: _, _ => exact ⟨_, rfl⟩

/-- Rows of the same length, at most three, with the same link are the same. -/
theorem eq_of_linkOf? {row other : Row} {l : String × String × String}
    (hlen : row.length = other.length) (hle : row.length ≤ 3) (h : linkOf? row = some l)
    (h' : linkOf? other = some l) : row = other := by
  obtain ⟨key, name, role⟩ := l
  obtain ⟨rest, rfl, hkey⟩ := (linkOf?_eq_some_iff row key name role).1 h
  obtain ⟨rest', rfl, hkey'⟩ := (linkOf?_eq_some_iff other key name role).1 h'
  match rest, rest' with
  | [], [] => rfl
  | [d], [d'] => rw [show d = d' from hkey.trans hkey'.symm]
  | [], _ :: _ => simp at hlen
  | [_], [] => simp at hlen
  | [_], _ :: _ :: _ => simp at hlen
  | _ :: _ :: _, _ =>
    simp only [List.length_cons] at hle
    omega

theorem RowsLink.mono {rows others : List Row} (hsub : ∀ row ∈ rows, row ∈ others)
    {key name role : String} (h : RowsLink rows key name role) : RowsLink others key name role := by
  obtain ⟨row, hrow, hl⟩ := h
  exact ⟨row, hsub row hrow, hl⟩

theorem RowsAcyclic.mono {rows others : List Row} (h : RowsAcyclic others)
    (hsub : ∀ row ∈ rows, row ∈ others) : RowsAcyclic rows := by
  intro key name hchain
  exact h key name (Relation.TransGen.mono (fun _ _ => RowsLink.mono hsub) _ _ hchain)

@[simp] theorem rowsLink_nil (key name role : String) : ¬ RowsLink [] key name role := by
  simp [RowsLink]

theorem rowsLink_cons {row : Row} {l : String × String × String} (h : linkOf? row = some l)
    (rest : List Row) (key name role : String) :
    RowsLink (row :: rest) key name role ↔ l = (key, name, role) ∨ RowsLink rest key name role := by
  simp [RowsLink, h]

theorem rowsLink_append (rows others : List Row) (key name role : String) :
    RowsLink (rows ++ others) key name role ↔
      RowsLink rows key name role ∨ RowsLink others key name role := by
  simp only [RowsLink, List.mem_append, or_and_right, exists_or]

namespace RoleManager

/-- A well-formed manager that has no cycles where it refuses them. -/
structure Sound (m : RoleManager) : Prop extends m.WellFormed where
  acyclic : m.rejectCycles = true → m.Acyclic

theorem sound_clear (m : RoleManager) : m.clear.Sound :=
  ⟨wellFormed_clear m, fun _ => acyclic_clear m⟩

theorem rejectCycles_eq {m k : RoleManager} (h : k.clear = m.clear) :
    k.rejectCycles = m.rejectCycles := by
  show k.clear.rejectCycles = m.clear.rejectCycles
  rw [h]

/-! ## One row -/

/-- A change of a row that fails leaves the manager as it was. -/
theorem changeRow_eq (m : RoleManager) (change : LinkChange) (row : Row) :
    m.changeRow change row = match m.applyRow change row with
      | .ok k => (.ok (), k)
      | .error err => (.error err, m) := by
  match row, change with
  | [], _ => rfl
  | [_], _ => rfl
  | _ :: _ :: _, .remove => rfl
  | name :: role :: rest, .add =>
    simp only [applyRow, changeRow, insertLink_eq]
    cases m.addLink name role rest.head? <;> rfl

theorem applyRow_add (m : RoleManager) (name role : String) (rest : List String) :
    m.applyRow .add (name :: role :: rest) = (m.addLink name role rest.head?).mapError .role := by
  simp only [applyRow, changeRow, insertLink_eq]
  cases m.addLink name role rest.head? <;> rfl

theorem clear_applyRow {m k : RoleManager} {change : LinkChange} {row : Row}
    (h : m.applyRow change row = .ok k) : k.clear = m.clear := by
  match row, change, h with
  | name :: role :: rest, .remove, h =>
    rw [← Except.ok.inj h]
    exact clear_deleteLink m name role rest.head?
  | name :: role :: rest, .add, h =>
    rw [applyRow_add] at h
    cases hl : m.addLink name role rest.head? with
    | ok l =>
      rw [hl] at h
      rw [← Except.ok.inj h, eq_withLink_of_addLink hl]
      exact clear_withLink m name role rest.head?
    | error => simp [hl, Except.mapError] at h

theorem Sound.applyRow {m k : RoleManager} (hm : m.Sound) {change : LinkChange} {row : Row}
    (h : m.applyRow change row = .ok k) : k.Sound := by
  match row, change, h with
  | name :: role :: rest, .remove, h =>
    rw [← Except.ok.inj h]
    refine ⟨hm.deleteLink name role rest.head?, fun hr => (hm.acyclic hr).mono fun key x y hl => ?_⟩
    exact ((hm.link_deleteLink name role rest.head? key x y).1 hl).1
  | name :: role :: rest, .add, h =>
    rw [applyRow_add] at h
    rcases hm.addLink_cases hm.acyclic name role rest.head? with ⟨hok, ha⟩ | ⟨⟨err, herr⟩, -⟩
    · rw [hok] at h
      rw [← Except.ok.inj h]
      exact ⟨hm.withLink name role rest.head?, ha⟩
    · simp [herr, Except.mapError] at h

theorem WellFormed.link_applyRow {m k : RoleManager} (hm : m.WellFormed) {change : LinkChange}
    {row : Row} (h : m.applyRow change row = .ok k) :
    ∃ l, linkOf? row = some l ∧
      ∀ key x y, k.Link key x y ↔ change.On (m.Link key x y) (l = (key, x, y)) := by
  match row, change, h with
  | name :: role :: rest, .remove, h =>
    refine ⟨_, rfl, fun key x y => ?_⟩
    rw [← Except.ok.inj h, hm.link_deleteLink]
    simp [LinkChange.On, eq_comm]
  | name :: role :: rest, .add, h =>
    refine ⟨_, rfl, fun key x y => ?_⟩
    rw [applyRow_add] at h
    cases hl : m.addLink name role rest.head? with
    | ok l =>
      rw [hl] at h
      rw [← Except.ok.inj h, eq_withLink_of_addLink hl, link_withLink]
      simp [LinkChange.On, eq_comm]
    | error => simp [hl, Except.mapError] at h

/-- A row that has a link can be dropped. -/
theorem applyRow_remove (m : RoleManager) {row : Row} {l : String × String × String}
    (h : linkOf? row = some l) : ∃ k, m.applyRow .remove row = .ok k := by
  match row, h with
  | _ :: _ :: _, _ => exact ⟨_, rfl⟩

/-- A row that has a link can be added, where cycles are refused only if it closes none. -/
theorem Sound.applyRow_add {m : RoleManager} (hm : m.Sound) {row : Row} {key name role : String}
    (hl : linkOf? row = some (key, name, role)) {held : String → String → String → Prop}
    (hsub : ∀ key x y, m.Link key x y → held key x y) (hnew : held key name role)
    (ha : m.rejectCycles = true → ∀ key x, ¬ Relation.TransGen (held key) x x) :
    ∃ k, m.applyRow .add row = .ok k := by
  match row, hl with
  | name :: role :: rest, hl =>
    simp only [linkOf?, Option.some.injEq, Prod.mk.injEq] at hl
    obtain ⟨rfl, rfl, rfl⟩ := hl
    rcases hm.addLink_cases hm.acyclic name role rest.head? with ⟨hok, -⟩ | ⟨-, hr, hcycle⟩
    · exact ⟨_, by rw [RoleManager.applyRow_add, hok]; rfl⟩
    · refine absurd (fun key x hchain => ?_) hcycle
      refine ha hr key x (Relation.TransGen.mono (fun u v huv => ?_) _ _ hchain)
      rcases (link_withLink m name role rest.head? key u v).1 huv with hold | ⟨rfl, rfl, rfl⟩
      · exact hsub key u v hold
      · exact hnew

/-! ## Rows one after the other -/

theorem applyRows_cons (m : RoleManager) (change : LinkChange) (row : Row) (rest : List Row) :
    m.applyRows change (row :: rest) = match m.applyRow change row with
      | .ok k => k.applyRows change rest
      | .error err => (.error err, m) := by
  rw [applyRows, changeRow_eq]
  cases m.applyRow change row <;> rfl

theorem clear_applyRows {m k : RoleManager} {change : LinkChange} {rows : List Row}
    {result : Except Error Unit} (h : m.applyRows change rows = (result, k)) : k.clear = m.clear := by
  induction rows generalizing m with
  | nil => rw [← (Prod.mk.inj h).2]
  | cons row rest ih =>
    rw [applyRows_cons] at h
    split at h
    · next l hl => exact (ih h).trans (clear_applyRow hl)
    · rw [← (Prod.mk.inj h).2]

theorem Sound.applyRows {m k : RoleManager} (hm : m.Sound) {change : LinkChange} {rows : List Row}
    {result : Except Error Unit} (h : m.applyRows change rows = (result, k)) : k.Sound := by
  induction rows generalizing m with
  | nil => rwa [← (Prod.mk.inj h).2]
  | cons row rest ih =>
    rw [applyRows_cons] at h
    split at h
    · next l hl => exact ih (hm.applyRow hl) h
    · rwa [← (Prod.mk.inj h).2]

theorem Sound.link_applyRows {m k : RoleManager} (hm : m.Sound) {change : LinkChange}
    {rows : List Row} (h : m.applyRows change rows = (.ok (), k)) (key x y : String) :
    k.Link key x y ↔ change.On (m.Link key x y) (RowsLink rows key x y) := by
  induction rows generalizing m with
  | nil =>
    rw [← (Prod.mk.inj h).2]
    cases change <;> simp [LinkChange.On]
  | cons row rest ih =>
    rw [applyRows_cons] at h
    split at h
    · next l hl =>
      obtain ⟨link, hlink, hiff⟩ := hm.link_applyRow hl
      rw [ih (hm.applyRow hl) h, hiff, rowsLink_cons hlink]
      cases change
      · exact or_assoc
      · simp only [LinkChange.On]
        tauto
    · simp at h

/-- Every row of a batch that went through has a link. -/
theorem Sound.linkOf?_of_applyRows {m k : RoleManager} (hm : m.Sound) {change : LinkChange}
    {rows : List Row} (h : m.applyRows change rows = (.ok (), k)) :
    ∀ row ∈ rows, ∃ l, linkOf? row = some l := by
  induction rows generalizing m with
  | nil => simp
  | cons row rest ih =>
    rw [applyRows_cons] at h
    split at h
    · next l hl =>
      obtain ⟨link, hlink, -⟩ := hm.link_applyRow hl
      intro r hr
      rcases List.mem_cons.1 hr with rfl | hr
      · exact ⟨link, hlink⟩
      · exact ih (hm.applyRow hl) h r hr
    · simp at h

/-- Rows stop at the first one that fails. -/
theorem applyRows_stop {m mid : RoleManager} {change : LinkChange} {pre : List Row} {row : Row}
    {err : Error} (hpre : m.applyRows change pre = (.ok (), mid))
    (herr : mid.applyRow change row = .error err) (post : List Row) :
    (m.applyRows change (pre ++ row :: post)).1 = .error err := by
  induction pre generalizing m with
  | nil =>
    obtain ⟨-, rfl⟩ := Prod.mk.inj hpre
    simp [applyRows_cons, herr]
  | cons r rest ih =>
    simp only [applyRows_cons, List.cons_append] at hpre ⊢
    split at hpre
    · exact ih hpre
    · simp at hpre

/-- Rows that fail do so at one of them, and those before it went through. -/
theorem applyRows_error {m k : RoleManager} {change : LinkChange} {rows : List Row} {err : Error}
    (h : m.applyRows change rows = (.error err, k)) :
    ∃ pre row post, rows = pre ++ row :: post ∧ m.applyRows change pre = (.ok (), k) ∧
      k.applyRow change row = .error err := by
  induction rows generalizing m with
  | nil => simp [applyRows] at h
  | cons row rest ih =>
    rw [applyRows_cons] at h
    split at h
    · next l hl =>
      obtain ⟨pre, r, post, rfl, hpre, herr⟩ := ih h
      refine ⟨row :: pre, r, post, rfl, ?_, herr⟩
      rw [applyRows_cons, hl]
      exact hpre
    · next fault herr =>
      obtain ⟨hfault, rfl⟩ := Prod.mk.inj h
      rw [Except.error.inj hfault] at herr
      exact ⟨[], row, rest, rfl, rfl, herr⟩

theorem applyRows_remove (m : RoleManager) {rows : List Row}
    (h : ∀ row ∈ rows, ∃ l, linkOf? row = some l) : ∃ k, m.applyRows .remove rows = (.ok (), k) := by
  induction rows generalizing m with
  | nil => exact ⟨m, rfl⟩
  | cons row rest ih =>
    obtain ⟨l, hl⟩ := h row List.mem_cons_self
    obtain ⟨k, hk⟩ := m.applyRow_remove hl
    simp only [applyRows_cons, hk]
    exact ih k fun r hr => h r (List.mem_cons_of_mem _ hr)

theorem Sound.applyRows_add {m : RoleManager} (hm : m.Sound) {rows : List Row}
    (held : String → String → String → Prop) (hsub : ∀ key x y, m.Link key x y → held key x y)
    (hrows : ∀ row ∈ rows, ∃ key x y, linkOf? row = some (key, x, y) ∧ held key x y)
    (ha : m.rejectCycles = true → ∀ key x, ¬ Relation.TransGen (held key) x x) :
    ∃ k, m.applyRows .add rows = (.ok (), k) := by
  induction rows generalizing m with
  | nil => exact ⟨m, rfl⟩
  | cons row rest ih =>
    obtain ⟨key, x, y, hl, hheld⟩ := hrows row List.mem_cons_self
    obtain ⟨k, hk⟩ := hm.applyRow_add hl hsub hheld ha
    simp only [applyRows_cons, hk]
    refine ih (hm.applyRow hk) (fun key' u v huv => ?_)
      (fun r hr => hrows r (List.mem_cons_of_mem _ hr)) ?_
    · obtain ⟨link, hlink, hiff⟩ := hm.link_applyRow hk
      rcases (hiff key' u v).1 huv with hold | hnew
      · exact hsub key' u v hold
      · rw [hl] at hlink
        rw [← Option.some.inj hlink] at hnew
        obtain ⟨rfl, rfl, rfl⟩ : key = key' ∧ x = u ∧ y = v := by simpa using hnew
        exact hheld
    · rw [rejectCycles_eq (clear_applyRow hk)]
      exact ha

/-! ## Batches -/

theorem applyBatch_go_cons (m : RoleManager) (change : LinkChange) (done : List Row) (row : Row)
    (rest : List Row) : applyBatch.go change m done (row :: rest) = match m.applyRow change row with
      | .ok k => applyBatch.go change k (row :: done) rest
      | .error err => (.error err, (m.applyRows change.inverse done.reverse).2) := by
  rw [applyBatch.go, changeRow_eq]
  cases m.applyRow change row <;> rfl

theorem applyBatch_go_cases (m : RoleManager) (change : LinkChange) (done rows : List Row) :
    (∃ k, m.applyRows change rows = (.ok (), k) ∧
        applyBatch.go change m done rows = (.ok (), k)) ∨
      ∃ pre row post mid err, rows = pre ++ row :: post ∧
        m.applyRows change pre = (.ok (), mid) ∧ mid.applyRow change row = .error err ∧
        applyBatch.go change m done rows =
          (.error err, (mid.applyRows change.inverse (done.reverse ++ pre)).2) := by
  induction rows generalizing m done with
  | nil => exact Or.inl ⟨m, rfl, rfl⟩
  | cons row rest ih =>
    cases hrow : m.applyRow change row with
    | error err =>
      refine Or.inr ⟨[], row, rest, m, err, rfl, rfl, hrow, ?_⟩
      simp only [applyBatch_go_cons, hrow, List.append_nil]
    | ok k =>
      rcases ih k (row :: done) with ⟨l, hl, hgo⟩ | ⟨pre, r, post, mid, err, rfl, hpre, herr, hgo⟩
      · exact Or.inl ⟨l, by simp only [applyRows_cons, hrow, hl],
          by simp only [applyBatch_go_cons, hrow, hgo]⟩
      · refine Or.inr ⟨row :: pre, r, post, mid, err, rfl, ?_, herr, ?_⟩
        · simp only [applyRows_cons, hrow, hpre]
        · simp only [applyBatch_go_cons, hrow, hgo, List.reverse_cons, List.append_assoc,
            List.singleton_append]

/-- A batch goes through as its rows do one by one, or stops at a row and takes those before it
back. -/
theorem applyBatch_cases (m : RoleManager) (change : LinkChange) (rows : List Row) :
    (∃ k, m.applyRows change rows = (.ok (), k) ∧ m.applyBatch change rows = (.ok (), k)) ∨
      ∃ pre row post mid err, rows = pre ++ row :: post ∧
        m.applyRows change pre = (.ok (), mid) ∧ mid.applyRow change row = .error err ∧
        m.applyBatch change rows = (.error err, (mid.applyRows change.inverse pre).2) :=
  m.applyBatch_go_cases change [] rows

/-- A batch goes through exactly when its rows do one by one. -/
theorem applyBatch_ok_iff {m k : RoleManager} {change : LinkChange} {rows : List Row} :
    m.applyBatch change rows = (.ok (), k) ↔ m.applyRows change rows = (.ok (), k) := by
  rcases m.applyBatch_cases change rows with
    ⟨l, hl, hb⟩ | ⟨pre, row, post, mid, err, rfl, hpre, herr, hb⟩
  · rw [hl, hb]
  · have hstop : (m.applyRows change (pre ++ row :: post)).1 = .error err :=
      applyRows_stop hpre herr post
    constructor
    · intro h
      rw [hb] at h
      simp at h
    · intro h
      rw [h] at hstop
      simp at hstop

theorem clear_applyBatch {m k : RoleManager} {change : LinkChange} {rows : List Row}
    {result : Except Error Unit} (h : m.applyBatch change rows = (result, k)) : k.clear = m.clear := by
  rcases m.applyBatch_cases change rows with
    ⟨l, hl, hb⟩ | ⟨pre, row, post, mid, err, rfl, hpre, -, hb⟩
  · rw [hb] at h
    obtain ⟨-, rfl⟩ := Prod.mk.inj h
    exact clear_applyRows hl
  · rw [hb] at h
    obtain ⟨-, rfl⟩ := Prod.mk.inj h
    exact (clear_applyRows rfl).trans (clear_applyRows hpre)

theorem Sound.applyBatch {m k : RoleManager} (hm : m.Sound) {change : LinkChange} {rows : List Row}
    {result : Except Error Unit} (h : m.applyBatch change rows = (result, k)) : k.Sound := by
  rcases m.applyBatch_cases change rows with
    ⟨l, hl, hb⟩ | ⟨pre, row, post, mid, err, rfl, hpre, -, hb⟩
  · rw [hb] at h
    obtain ⟨-, rfl⟩ := Prod.mk.inj h
    exact hm.applyRows hl
  · rw [hb] at h
    obtain ⟨-, rfl⟩ := Prod.mk.inj h
    exact (hm.applyRows hpre).applyRows rfl

end RoleManager

end AccessControl
