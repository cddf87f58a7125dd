import AccessControl.Proofs.Roles.Links
import AccessControl.Roles.Arena
/-!
# Links by id and by name

An arena is valid when its names are distinct and every id in it is that of a node.  Whatever happens to a
valid arena keeps it valid, for a new node goes to the end and only nodes that came after a checkpoint are
dropped; and by names it is what happens to the graph.  So no id leads to a missing node, and no empty name
stands in for one.

    a.ActsAs f F → changing a node by f is changing it by F, by names  (`Valid.modify_both`)
    a.Valid → (a.link x y).2.2.view = a.view.link x y                   (`Valid.link`)
    a.Valid → (a.unlink x y).view = a.view.unlink x y                   (`Valid.unlink`)
    a.Valid → (a.link x y).2.2.restore (a.checkpoint x y) = a           (`Valid.restore_link`)
-/

namespace AccessControl

namespace Arena

/-- Names are distinct, and all ids are those of nodes. -/
structure Valid (a : Arena) : Prop where
  distinct : a.nodes.keys.Nodup
  ids : ∀ e ∈ a.nodes, ∀ id ∈ e.2.roles ++ e.2.users, id < a.nodes.length

theorem valid_empty : ({} : Arena).Valid where
  distinct := List.nodup_nil
  ids := by simp

variable {a : Arena} {name role : String} {id : Nat}

/-! ## Names and ids -/

theorem name_eq {e : String × ArenaNode} (h : a.nodes[id]? = some e) : a.name id = e.1 := by
  rw [Arena.name, h]
  rfl

theorem exists_node (h : id < a.nodes.length) : ∃ e, a.nodes[id]? = some e :=
  ⟨_, List.getElem?_eq_getElem h⟩

theorem getElem?_keys (h : id < a.nodes.length) : a.nodes.keys[id]? = some (a.name id) := by
  obtain ⟨e, he⟩ := exists_node h
  rw [Table.keys, List.getElem?_map, he, name_eq he]
  rfl

/-- A name is the name of one node. -/
theorem Valid.eq_of_name (ha : a.Valid) {i j : Nat} (hi : i < a.nodes.length) (hj : j < a.nodes.length)
    (h : a.name i = a.name j) : i = j := by
  have hlt : i < a.nodes.keys.length := by rwa [Table.keys, List.length_map]
  refine (List.getElem?_inj hlt ha.distinct).1 ?_
  rw [getElem?_keys hi, getElem?_keys hj, h]

theorem id?_eq_none : a.id? name = none ↔ name ∉ a.nodes.keys := List.idxOf?_eq_none_iff

theorem Valid.id?_eq_some (ha : a.Valid) :
    a.id? name = some id ↔ id < a.nodes.length ∧ a.name id = name := by
  have hlength : a.nodes.keys.length = a.nodes.length := List.length_map _
  constructor
  · intro h
    obtain ⟨hlt, hname, -⟩ := List.idxOf?_eq_some_iff.1 h
    rw [hlength] at hlt
    refine ⟨hlt, ?_⟩
    have hkey := getElem?_keys hlt
    rw [List.getElem?_eq_getElem (by rwa [hlength])] at hkey
    exact (Option.some.inj hkey).symm.trans hname
  · rintro ⟨hlt, rfl⟩
    cases h : a.id? (a.name id) with
    | none => exact absurd (List.mem_of_getElem? (getElem?_keys hlt)) (id?_eq_none.1 h)
    | some other =>
      obtain ⟨hother, hname, -⟩ := List.idxOf?_eq_some_iff.1 h
      rw [hlength] at hother
      have hkey := getElem?_keys hother
      rw [List.getElem?_eq_getElem (by rwa [hlength])] at hkey
      rw [ha.eq_of_name hother hlt ((Option.some.inj hkey).symm.trans hname)]

/-! ## The graph by names -/

theorem getElem?_view : a.view.nodes[id]? = a.nodes[id]?.map fun e => (e.1, a.viewNode e.2) :=
  List.getElem?_map

@[simp] theorem keys_view : a.view.nodes.keys = a.nodes.keys := by
  simp [view, Table.keys]

@[simp] theorem length_view : a.view.nodes.length = a.nodes.length := List.length_map _

theorem contains_view : a.view.nodes.contains name = (a.id? name).isSome := by
  rw [Bool.eq_iff_iff, Table.contains_iff, keys_view, Option.isSome_iff_ne_none, ne_eq, id?_eq_none, not_not]

/-- What a node of a valid arena is by names. -/
theorem Valid.find_view (ha : a.Valid) {e : String × ArenaNode} (h : a.nodes[id]? = some e) :
    a.view.nodes.find e.1 = some (a.viewNode e.2) := by
  have hdistinct : a.view.nodes.keys.Nodup := by
    rw [keys_view]
    exact ha.distinct
  rw [Table.find_eq_some_iff hdistinct]
  refine List.mem_of_getElem? (i := id) ?_
  rw [getElem?_view, h]
  rfl

theorem viewNode_congr {b : Arena} {n : ArenaNode} (h : ∀ i ∈ n.roles ++ n.users, b.name i = a.name i) :
    b.viewNode n = a.viewNode n := by
  unfold viewNode
  rw [List.map_congr_left fun i hi => h i (List.mem_append_left _ hi),
    List.map_congr_left fun i hi => h i (List.mem_append_right _ hi)]

/-! ## Changing a node -/

section

variable {f : ArenaNode → ArenaNode}

theorem getElem?_modify (i : Nat) :
    (a.modify id f).nodes[i]? = a.nodes[i]?.map fun e => if id = i then (e.1, f e.2) else e := by
  rw [modify, List.getElem?_modify]
  rfl

@[simp] theorem length_modify : (a.modify id f).nodes.length = a.nodes.length := List.length_modify _ _ _

@[simp] theorem name_modify (i : Nat) : (a.modify id f).name i = a.name i := by
  rw [Arena.name, Arena.name, getElem?_modify, Option.map_map]
  congr 2
  funext e
  dsimp only [Function.comp]
  split <;> rfl

@[simp] theorem viewNode_modify : (a.modify id f).viewNode = a.viewNode :=
  funext fun _ => viewNode_congr fun i _ => name_modify i

@[simp] theorem keys_modify : (a.modify id f).nodes.keys = a.nodes.keys := by
  refine List.ext_getElem? fun i => ?_
  rw [Table.keys, Table.keys, List.getElem?_map, List.getElem?_map, getElem?_modify, Option.map_map]
  congr 1
  funext e
  dsimp only [Function.comp]
  split <;> rfl

theorem Valid.modify (ha : a.Valid)
    (hf : ∀ e, a.nodes[id]? = some e → ∀ i ∈ (f e.2).roles ++ (f e.2).users, i < a.nodes.length) :
    (a.modify id f).Valid where
  distinct := by
    rw [keys_modify]
    exact ha.distinct
  ids := by
    intro e he i hi
    rw [length_modify]
    obtain ⟨j, hj⟩ := List.mem_iff_getElem?.1 he
    rw [getElem?_modify] at hj
    obtain ⟨old, hold, rfl⟩ := Option.map_eq_some_iff.1 hj
    split at hi
    · next heq => exact hf old (heq ▸ hold) i hi
    · exact ha.ids old (List.mem_of_getElem? hold) i hi

/-- Changing the node with an id is updating the node with its name. -/
theorem Valid.view_modify (ha : a.Valid) {e : String × ArenaNode} (hid : a.nodes[id]? = some e)
    {F : LinkNode → LinkNode} (hf : a.viewNode (f e.2) = F (a.viewNode e.2)) :
    (a.modify id f).view = ⟨a.view.nodes.update e.1 F⟩ := by
  have hdistinct : a.view.nodes.keys.Nodup := by
    rw [keys_view]
    exact ha.distinct
  have hview : a.view.nodes[id]? = some (e.1, a.viewNode e.2) := by
    rw [getElem?_view, hid]
    rfl
  rw [LinkGraph.mk.injEq, ← Table.modify_eq_update hdistinct hview]
  refine List.ext_getElem? fun i => ?_
  rw [getElem?_view, viewNode_modify, getElem?_modify, List.getElem?_modify, getElem?_view]
  by_cases hi : id = i
  · subst hi
    simp [hid, hf]
  · simp [hi]

end

/-- A change of a node keeps its ids valid, and is another change by names. -/
def ActsAs (a : Arena) (f : ArenaNode → ArenaNode) (F : LinkNode → LinkNode) : Prop :=
  ∀ n : ArenaNode, (∀ i ∈ n.roles ++ n.users, i < a.nodes.length) →
    (∀ i ∈ (f n).roles ++ (f n).users, i < a.nodes.length) ∧ a.viewNode (f n) = F (a.viewNode n)

section

variable {f g : ArenaNode → ArenaNode} {F G : LinkNode → LinkNode}

theorem ActsAs.modify (hg : a.ActsAs g G) : (a.modify id f).ActsAs g G := by
  unfold ActsAs
  rwa [length_modify, viewNode_modify]

theorem Valid.modify_mirrored (ha : a.Valid) (hid : id < a.nodes.length) (hf : a.ActsAs f F) :
    (a.modify id f).Valid ∧ (a.modify id f).view = ⟨a.view.nodes.update (a.name id) F⟩ := by
  obtain ⟨e, he⟩ := exists_node hid
  obtain ⟨hids, hview⟩ := hf e.2 (ha.ids e (List.mem_of_getElem? he))
  constructor
  · refine ha.modify fun e' he' => ?_
    obtain rfl := Option.some.inj (he.symm.trans he')
    exact hids
  · rw [ha.view_modify he hview, name_eq he]

/-- Changing two nodes, one after the other. -/
theorem Valid.modify_both (ha : a.Valid) {source target : Nat} (hsource : source < a.nodes.length)
    (htarget : target < a.nodes.length) (hf : a.ActsAs f F) (hg : a.ActsAs g G) :
    ((a.modify source f).modify target g).Valid ∧
      ((a.modify source f).modify target g).view =
        ⟨(a.view.nodes.update (a.name source) F).update (a.name target) G⟩ := by
  obtain ⟨hfirst, hview⟩ := ha.modify_mirrored hsource hf
  have hsecond := hfirst.modify_mirrored (by rwa [length_modify]) hg.modify
  rwa [hview, name_modify] at hsecond

end

/-! ## Links -/

section

variable {source target : Nat}

/-- A change of ids keeps them valid, and is another change of their names. -/
def Renames (a : Arena) (g : List Nat → List Nat) (G : List String → List String) : Prop :=
  ∀ ids : List Nat, (∀ i ∈ ids, i < a.nodes.length) →
    (∀ i ∈ g ids, i < a.nodes.length) ∧ (g ids).map a.name = G (ids.map a.name)

theorem Valid.renames_addNew (ha : a.Valid) (h : id < a.nodes.length) :
    a.Renames (addNew · id) (addNew · (a.name id)) := by
  refine fun ids hids => ⟨fun i hi => ?_, map_addNew fun i hi => ha.eq_of_name (hids i hi) h⟩
  rcases (mem_addNew _ _ _).1 hi with hold | rfl
  · exact hids i hold
  · exact h

theorem Valid.renames_erase (ha : a.Valid) (h : id < a.nodes.length) :
    a.Renames (·.erase id) (·.erase (a.name id)) := fun _ hids =>
  ⟨fun i hi => hids i (List.mem_of_mem_erase hi), map_erase_of_mem fun i hi => ha.eq_of_name (hids i hi) h⟩

section

variable {g : List Nat → List Nat} {G : List String → List String} (hg : a.Renames g G)

include hg

theorem Renames.actsAs_roles :
    a.ActsAs (fun n => { n with roles := g n.roles }) fun n => { n with roles := G n.roles } := by
  intro n hn
  rw [List.forall_mem_append] at hn
  obtain ⟨hids, hnames⟩ := hg n.roles hn.1
  constructor
  · exact List.forall_mem_append.2 ⟨hids, hn.2⟩
  · rw [viewNode, viewNode, hnames]

theorem Renames.actsAs_users :
    a.ActsAs (fun n => { n with users := g n.users }) fun n => { n with users := G n.users } := by
  intro n hn
  rw [List.forall_mem_append] at hn
  obtain ⟨hids, hnames⟩ := hg n.users hn.2
  constructor
  · exact List.forall_mem_append.2 ⟨hn.1, hids⟩
  · rw [viewNode, viewNode, hnames]

end

theorem Valid.connect (ha : a.Valid) (hsource : source < a.nodes.length) (htarget : target < a.nodes.length) :
    (a.connect source target).Valid ∧
      (a.connect source target).view = a.view.connect (a.name source) (a.name target) := by
  have hroles := (ha.renames_addNew htarget).actsAs_roles
  have husers := (ha.renames_addNew hsource).actsAs_users
  exact ha.modify_both hsource htarget hroles husers

@[simp] theorem length_connect : (a.connect source target).nodes.length = a.nodes.length := by
  rw [Arena.connect, length_modify, length_modify]

@[simp] theorem name_connect (i : Nat) : (a.connect source target).name i = a.name i := by
  rw [Arena.connect, name_modify, name_modify]

/-- Dropping a link by ids is dropping it by names. -/
theorem Valid.unlink (ha : a.Valid) (name role : String) :
    (a.unlink name role).Valid ∧ (a.unlink name role).view = a.view.unlink name role := by
  unfold Arena.unlink LinkGraph.unlink
  rw [contains_view, contains_view]
  cases hname : a.id? name with
  | none => exact ⟨ha, rfl⟩
  | some source =>
    cases hrole : a.id? role with
    | none => exact ⟨ha, rfl⟩
    | some target =>
      obtain ⟨hsource, rfl⟩ := ha.id?_eq_some.1 hname
      obtain ⟨htarget, rfl⟩ := ha.id?_eq_some.1 hrole
      have hroles := (ha.renames_erase htarget).actsAs_roles
      have husers := (ha.renames_erase hsource).actsAs_users
      exact ha.modify_both hsource htarget hroles husers

end

/-- A name that becomes a node goes to the end. -/
theorem intern_cases (a : Arena) (name : String) :
    (a.id? name = some (a.intern name).1 ∧ (a.intern name).2 = a) ∨
      (name ∉ a.nodes.keys ∧ (a.intern name).1 = a.nodes.length ∧
        (a.intern name).2 = ⟨a.nodes ++ [(name, ({} : ArenaNode))]⟩) := by
  unfold intern
  cases h : a.id? name with
  | some id => exact Or.inl ⟨rfl, rfl⟩
  | none => exact Or.inr ⟨id?_eq_none.1 h, rfl, rfl⟩

theorem prefix_intern (a : Arena) (name : String) : a.nodes <+: (a.intern name).2.nodes := by
  rcases a.intern_cases name with ⟨-, heq⟩ | ⟨-, -, heq⟩
  · exact heq.symm ▸ List.prefix_refl a.nodes
  · exact heq.symm ▸ List.prefix_append a.nodes _

theorem name_of_isPrefix {b : Arena} (h : a.nodes <+: b.nodes) (hid : id < a.nodes.length) :
    b.name id = a.name id := by
  obtain ⟨rest, hrest⟩ := h
  rw [Arena.name, Arena.name, ← hrest, List.getElem?_append_left hid]

/-- Making a name a node by ids is making it one by names, and gives the id of the name. -/
theorem Valid.intern (ha : a.Valid) (name : String) :
    (a.intern name).2.Valid ∧ (a.intern name).2.view = a.view.intern name ∧
      (a.intern name).2.id? name = some (a.intern name).1 := by
  have hids : ∀ e ∈ a.nodes, ∀ i ∈ e.2.roles ++ e.2.users, i < a.nodes.length := ha.ids
  rcases a.intern_cases name with ⟨hid, heq⟩ | ⟨hnew, hid, heq⟩
  · rw [heq, LinkGraph.intern, if_pos (by rw [contains_view, hid]; rfl)]
    exact ⟨ha, rfl, hid⟩
  · have hvalid : (a.intern name).2.Valid := by
      rw [heq]
      constructor
      · have hkeys : Table.keys (a.nodes ++ [(name, ({} : ArenaNode))]) = a.nodes.keys ++ [name] :=
          List.map_append
        rw [hkeys]
        exact List.nodup_append.2 ⟨ha.distinct, by simp, by rintro x hx _ hy rfl; simp_all⟩
      · intro e he i hi
        rw [List.length_append]
        rcases List.mem_append.1 he with hold | hlast
        · exact Nat.lt_of_lt_of_le (hids e hold i hi) (Nat.le_add_right _ _)
        · obtain rfl := List.mem_singleton.1 hlast
          simp at hi
    refine ⟨hvalid, ?_, ?_⟩
    · have hview : ∀ e ∈ a.nodes, (a.intern name).2.viewNode e.2 = a.viewNode e.2 := fun e he =>
        viewNode_congr fun i hi => name_of_isPrefix (a.prefix_intern name) (hids e he i hi)
      have hmissing : ¬ a.view.nodes.contains name = true := by
        rwa [Table.contains_iff, keys_view]
      rw [LinkGraph.intern, if_neg hmissing, LinkGraph.mk.injEq,
        Table.put_of_not_mem (by rwa [keys_view])]
      rw [heq] at hview ⊢
      rw [Arena.view, List.map_append, List.map_congr_left fun e he => by rw [hview e he]]
      rfl
    · rw [hvalid.id?_eq_some, hid, heq]
      refine ⟨by rw [List.length_append]; exact Nat.lt_succ_self _, ?_⟩
      refine name_eq (e := (name, {})) ?_
      rw [List.getElem?_append_right (Nat.le_refl _), Nat.sub_self]
      rfl

/-- Adding a link by ids is adding it by names, and gives the ids of its names. -/
theorem Valid.link (ha : a.Valid) (name role : String) :
    (a.link name role).2.2.Valid ∧ (a.link name role).2.2.view = a.view.link name role ∧
      (a.link name role).2.2.id? name = some (a.link name role).1 ∧
      (a.link name role).2.2.id? role = some (a.link name role).2.1 := by
  obtain ⟨hfirst, hfirstView, hname⟩ := ha.intern name
  obtain ⟨hsecond, hsecondView, hrole⟩ := hfirst.intern role
  obtain ⟨hsource, hsourceName⟩ := hfirst.id?_eq_some.1 hname
  obtain ⟨htarget, htargetName⟩ := hsecond.id?_eq_some.1 hrole
  have hinitial := (a.intern name).2.prefix_intern role
  have hsource' := Nat.lt_of_lt_of_le hsource hinitial.length_le
  obtain ⟨hvalid, hview⟩ := hsecond.connect hsource' htarget
  rw [htargetName, name_of_isPrefix hinitial hsource, hsourceName, hsecondView, hfirstView] at hview
  refine ⟨hvalid, hview, hvalid.id?_eq_some.2 ⟨?_, ?_⟩, hvalid.id?_eq_some.2 ⟨?_, ?_⟩⟩
  · exact Nat.lt_of_lt_of_eq hsource' length_connect.symm
  · exact (name_connect _).trans ((name_of_isPrefix hinitial hsource).trans hsourceName)
  · exact Nat.lt_of_lt_of_eq htarget length_connect.symm
  · exact (name_connect _).trans htargetName

/-! ## Taking a link back -/

/-- Among the nodes that were there, a link changes those of its two names. -/
theorem take_link (a : Arena) (name role : String) :
    (⟨(a.link name role).2.2.nodes.take a.nodes.length⟩ : Arena) =
      a.connect (a.link name role).1 (a.link name role).2.1 := by
  have hinitial : a.nodes <+: ((a.intern name).2.intern role).2.nodes :=
    (a.prefix_intern name).trans ((a.intern name).2.prefix_intern role)
  unfold link connect modify
  dsimp only
  rw [List.take_modify, List.take_modify, ← List.prefix_iff_eq_take.1 hinitial]

/-- A node that comes after others has its id there only. -/
theorem Valid.id?_of_isPrefix (ha : a.Valid) {b : Arena} (hb : b.Valid) (h : a.nodes <+: b.nodes)
    (hid : b.id? name = some id) : a.id? name = if id < a.nodes.length then some id else none := by
  obtain ⟨-, hname⟩ := hb.id?_eq_some.1 hid
  split
  · next hlt => exact ha.id?_eq_some.2 ⟨hlt, (name_of_isPrefix h hlt).symm.trans hname⟩
  · next hge =>
    cases hother : a.id? name with
    | none => rfl
    | some other =>
      obtain ⟨hlt, hotherName⟩ := ha.id?_eq_some.1 hother
      have hsame : b.id? name = some other :=
        hb.id?_eq_some.2 ⟨Nat.lt_of_lt_of_le hlt h.length_le, (name_of_isPrefix h hlt).trans hotherName⟩
      obtain rfl := Option.some.inj (hid.symm.trans hsame)
      exact absurd hlt hge

/-- What a checkpoint keeps of a name is the node with its id, if it was there. -/
theorem row_eq {found : Option Nat} (h : found = if id < a.nodes.length then some id else none) :
    (found.bind fun id => (a.node? id).map fun node => (id, node)) =
      (a.node? id).map fun node => (id, node) := by
  rw [h]
  split
  · rfl
  · next hge =>
    rw [node?, List.getElem?_eq_none (Nat.le_of_not_lt hge)]
    rfl

/-- Two nodes that are put back, in the order in which they were changed. -/
theorem foldl_rows (source target : Nat) (f g : ArenaNode → ArenaNode) :
    ([source, target].filterMap fun id => (a.node? id).map fun node => (id, node)).foldl
        (fun b row => b.modify row.1 fun _ => row.2) ((a.modify source f).modify target g) = a := by
  rw [Arena.mk.injEq]
  refine List.ext_getElem? fun i => ?_
  -- at every place: either node may be missing, and the place may be that of either or of neither
  cases hs : a.nodes[source]? <;> cases ht : a.nodes[target]? <;>
    by_cases hi : source = i <;> by_cases hj : target = i <;>
    simp_all [node?, getElem?_modify]

/-- An arena whose two nodes are put back, and whose new nodes are dropped, is the arena before. -/
theorem Valid.restore_link (ha : a.Valid) (name role : String) :
    (a.link name role).2.2.restore (a.checkpoint name role) = a := by
  obtain ⟨hfirst, -, hname⟩ := ha.intern name
  obtain ⟨hsecond, -, hrole⟩ := hfirst.intern role
  have hinitial := a.prefix_intern name
  have hrows : (a.checkpoint name role).rows =
      [(a.link name role).1, (a.link name role).2.1].filterMap fun id =>
        (a.node? id).map fun node => (id, node) := by
    have hfound := ha.id?_of_isPrefix hfirst hinitial hname
    have hfound' := ha.id?_of_isPrefix hsecond (hinitial.trans ((a.intern name).2.prefix_intern role)) hrole
    unfold checkpoint
    simp only [List.filterMap_cons, List.filterMap_nil, row_eq hfound, row_eq hfound']
    rfl
  rw [restore, hrows]
  show List.foldl _ (⟨(a.link name role).2.2.nodes.take a.nodes.length⟩ : Arena) _ = a
  rw [take_link]
  exact foldl_rows _ _ _ _

/-! ## Direct links -/

/-- The links of the node with a name, by ids and by names. -/
theorem Valid.flatMap_links (ha : a.Valid) {links : ArenaNode → List Nat} {names : LinkNode → List String}
    (h : ∀ n, names (a.viewNode n) = (links n).map a.name) (name : String) :
    ((a.id? name).toList.flatMap fun id => (a.node? id).toList.flatMap fun n => (links n).map a.name) =
      (a.view.nodesMatching none name).flatMap fun stored =>
        ((a.view.nodes.find stored).map names).getD [] := by
  unfold LinkGraph.nodesMatching
  dsimp only
  rw [contains_view]
  cases hid : a.id? name with
  | none => rfl
  | some id =>
    obtain ⟨hlt, rfl⟩ := ha.id?_eq_some.1 hid
    obtain ⟨e, he⟩ := exists_node hlt
    simp [node?, he, name_eq he, ha.find_view he, h]

end Arena

end AccessControl
