import ThemeLens.Proofs.Json.Keys
import ThemeLens.Proofs.Theme.Flattening
import ThemeLens.Proofs.Theme.Growth

/-!
# Themes nested in JSON

A theme that comes as JSON is a tree already: an object is a group of fields, and what is not an
object is a leaf. Its table could be read off that tree by going down the fields, and `tabulate` does
just this. It is the second reading of a JSON theme, with no nodes, no links and no branch in it.

The library goes another way. It numbers the values, links them, and walks the graph with an eye on
the branch. The two ways meet in `Holds`: a node holds a JSON value when the part of the graph below
it is that value, field by field, with numbers that grow on the way down. Numbering a value makes a
node that holds it (`holds_addJson`), and the walk from a node that holds a value says what the value
says (`visitAll_eq_fill`), since a child numbered above its whole branch is never on it.

An object is given as its list of fields, and a list could have a key twice, which no object has.
So the values compared here have distinct keys; a value that was read always has
(`Json.keysDistinct_of_read?`).
-/

namespace ThemeLens

/-! ## 1. The table of a nested theme -/

namespace Json

open Theme (callable? callableMarker)

/-- Something met on the way down: a row for the table, or a defect. -/
abbrev Finding := Except Defect (Text × Value)

mutual

/-- What a value says under a key, `path` being its path. -/
def findings (callableKey path key : Text) : Json → List Finding
  | .null => []
  | .bool b => [.ok (path, .scalar (.bool b))]
  | .num n => [.ok (path, .scalar (.number n))]
  | .str s => [.ok (path, .scalar (.string s))]
  | .arr items => [.ok (path, .list items)]
  | .obj fields =>
    match callable? fields with
    | some params =>
      if DottedPath.partialSegment key = callableKey then [.ok (path, .function params)] else []
    | none => fieldFindings callableKey path fields

/-- What the fields of an object say, in their order. -/
def fieldFindings (callableKey above : Text) : List (Text × Json) → List Finding
  | [] => []
  | (key, value) :: fields =>
    (if key = [] then [.error ⟨DottedPath.join above key, .emptyKey⟩]
      else findings callableKey (DottedPath.join above key) key value) ++
      fieldFindings callableKey above fields

end

/-- Puts rows into a table, up to the first defect: one that was found, or a row in the way of an
    earlier one. -/
def fill (out : Table) : List Finding → Except Defect Table
  | [] => .ok out
  | .error defect :: _ => .error defect
  | .ok row :: rest => (Theme.emit out row.1 row.2).bind fun out => fill out rest

/-- The table of a JSON value, by recursion on the value. -/
def tabulate (callableKey : Text) : Json → Except Defect Table
  | .obj fields =>
    match callable? fields with
    | some _ => .error ⟨[], .rootNotComposite⟩
    | none => fill ∅ (fieldFindings callableKey [] fields)
  | _ => .error ⟨[], .rootNotComposite⟩

/-- The form of a function: one key, the marker, with nothing or with the names of parameters. -/
def IsFunction (v : Json) : Prop :=
  v = .obj [(callableMarker, .null)] ∨
    ∃ params : List Text, v = .obj [(callableMarker, .arr (params.map .str))]

end Json

namespace Theme

open Json (Finding KeysDistinct FieldsDistinct findings fieldFindings fill)

variable {theme theme' : Theme} {callableKey : Text} {id : NodeId} {v : Json} {node : Node}
  {fields : List (Text × Json)}

/-! ## 2. Nodes that hold a value -/

/-- The node of a value without fields of its own. -/
def leafNode? : Json → Option Node
  | .null => some .null
  | .bool b => some (.scalar (.bool b))
  | .num n => some (.scalar (.number n))
  | .str s => some (.scalar (.string s))
  | .arr items => some (.list items)
  | .obj fields => (callable? fields).map .callable

mutual

/-- The part of the graph below a node is a JSON value. -/
inductive Holds (theme : Theme) : NodeId → Json → Prop
  | leaf {id : NodeId} {v : Json} {node : Node} (hv : leafNode? v = some node)
      (hnode : theme.node? id = some node) : Holds theme id v
  | group {id : NodeId} {fields : List (Text × Json)} {links : OrderedMap NodeId}
      (hfields : callable? fields = none) (hnode : theme.node? id = some (.composite links))
      (hlinks : HoldsAll theme id links.entries fields) : Holds theme id (.obj fields)

/-- Links have the keys of fields, and lead to nodes that hold their values and are numbered above
    the parent. -/
inductive HoldsAll (theme : Theme) : NodeId → List (Text × NodeId) → List (Text × Json) → Prop
  | nil {parent : NodeId} : HoldsAll theme parent [] []
  | cons {parent child : NodeId} {key : Text} {v : Json} {links : List (Text × NodeId)}
      {fields : List (Text × Json)} (hlt : parent < child) (hchild : Holds theme child v)
      (hrest : HoldsAll theme parent links fields) :
      HoldsAll theme parent ((key, child) :: links) ((key, v) :: fields)

end

mutual

/-- What a node holds is all numbered from the node on. -/
theorem Holds.keep {theme theme' : Theme} {id : NodeId} {v : Json} (h : theme.Holds id v)
    (hkeeps : theme.Keeps theme' (id ≤ ·)) : theme'.Holds id v := by
  cases h with
  | leaf hv hnode => exact .leaf hv (hkeeps (Nat.le_refl id) hnode)
  | group hfields hnode hlinks =>
    exact .group hfields (hkeeps (Nat.le_refl id) hnode)
      (hlinks.keep (hkeeps.mono fun _ hlt => Nat.le_of_lt hlt))

theorem HoldsAll.keep {theme theme' : Theme} {id : NodeId} {links : List (Text × NodeId)}
    {fields : List (Text × Json)} (h : theme.HoldsAll id links fields)
    (hkeeps : theme.Keeps theme' (id < ·)) : theme'.HoldsAll id links fields := by
  cases h with
  | nil => exact .nil
  | cons hlt hchild hrest =>
    exact .cons hlt (hchild.keep (hkeeps.mono fun _ hle => Nat.lt_of_lt_of_le hlt hle))
      (hrest.keep hkeeps)

end

/-! ## 3. Numbering a value -/

theorem addJson_leaf (theme : Theme) (hv : leafNode? v = some node) :
    addJson theme v = theme.add node := by
  cases v with
  | obj fields =>
    obtain ⟨params, hfields, rfl⟩ := Option.map_eq_some_iff.mp hv
    rw [addJson, hfields]
  | _ =>
    cases hv
    rw [addJson]

theorem addJson_group (theme : Theme) (hfields : callable? fields = none) :
    addJson theme (.obj fields) = (theme.nodes.size,
      addFields (theme.add (.composite ∅)).2 theme.nodes.size fields) := by
  rw [addJson, hfields]
  rfl

theorem addFields_cons (theme : Theme) (parent : NodeId) (key : Text) (v : Json)
    (fields : List (Text × Json)) :
    addFields theme parent ((key, v) :: fields) =
      addFields (((addJson theme v).2.link? parent key (addJson theme v).1).getD
        (addJson theme v).2) parent fields := by
  rw [addFields]

theorem leaf_or_group (v : Json) :
    (∃ node, leafNode? v = some node) ∨ ∃ fields, v = .obj fields ∧ callable? fields = none := by
  cases v with
  | obj fields =>
    cases h : callable? fields with
    | none => exact .inr ⟨fields, rfl, h⟩
    | some params =>
      refine .inl ⟨.callable params, ?_⟩
      rw [leafNode?, h]
      rfl
  | _ => exact .inl ⟨_, rfl⟩

mutual

/-- **Numbering a value makes a node that holds it**, and leaves the nodes there were as they were. -/
theorem holds_addJson (theme : Theme) (v : Json) (hv : v.KeysDistinct) :
    (addJson theme v).1 = theme.nodes.size ∧ theme.Keeps (addJson theme v).2 (fun _ => True) ∧
      (addJson theme v).2.Holds theme.nodes.size v := by
  rcases leaf_or_group v with ⟨node, hleaf⟩ | ⟨fields, rfl, hfields⟩
  · rw [addJson_leaf theme hleaf]
    exact ⟨rfl, keeps_add theme node _, .leaf hleaf (node?_add_self theme node)⟩
  · obtain ⟨hkeys, hvalues⟩ := hv
    rw [addJson_group theme hfields]
    obtain ⟨links, more, hnode, hlinks, hall, hkeeps⟩ :=
      holdsAll_addFields _ _ ∅ fields (node?_add_self theme (.composite ∅)) hkeys hvalues
    have hmore : links.entries = more := hlinks
    refine ⟨rfl, ?_, .group hfields hnode (hmore ▸ hall)⟩
    intro id node _ hid
    have hne : id ≠ theme.nodes.size := Nat.ne_of_lt (lt_size_of_node? hid)
    exact hkeeps hne (keeps_add theme (.composite ∅) (fun _ => True) trivial hid)

/-- The fields go behind the links that are there. Each value is numbered before it is linked, so
    above the parent, and linking the later ones touches the parent alone. -/
theorem holdsAll_addFields (theme : Theme) (parent : NodeId) (links : OrderedMap NodeId)
    (fields : List (Text × Json)) (hparent : theme.node? parent = some (.composite links))
    (hkeys : (links.keys ++ fields.map (·.1)).Nodup) (hvalues : FieldsDistinct fields) :
    ∃ links' more, (addFields theme parent fields).node? parent = some (.composite links') ∧
      links'.entries = links.entries ++ more ∧
      (addFields theme parent fields).HoldsAll parent more fields ∧
      theme.Keeps (addFields theme parent fields) (· ≠ parent) := by
  match fields with
  | [] =>
    rw [addFields]
    refine ⟨links, [], hparent, (List.append_nil _).symm, .nil, ?_⟩
    intro id node _ hnode
    exact hnode
  | (key, v) :: fields =>
    obtain ⟨hv, hvalues⟩ := hvalues
    obtain ⟨hnumber, hkept, hholds⟩ := holds_addJson theme v hv
    obtain ⟨linked, hlink, hnode, -, hlinked⟩ :=
      exists_link (hkept trivial hparent) key theme.nodes.size
    -- the key is a new one, so its link goes behind the others
    have hput : (links.insert key theme.nodes.size).entries =
        links.entries ++ [(key, theme.nodes.size)] := by
      refine Entries.put_of_notMem ?_
      intro hmem
      exact (List.nodup_append.mp hkeys).2.2 key hmem key (by simp) rfl
    have hkeys' : ((links.insert key theme.nodes.size).keys ++ fields.map (·.1)).Nodup := by
      unfold OrderedMap.keys
      rw [hput, List.map_append, List.append_assoc]
      exact hkeys
    obtain ⟨links', more, hnode', hentries, hall, hkeeps⟩ :=
      holdsAll_addFields linked parent _ fields hnode hkeys' hvalues
    have hlt : parent < theme.nodes.size := lt_size_of_node? hparent
    have hlater : (addJson theme v).2.Keeps (addFields linked parent fields) (· ≠ parent) :=
      hlinked.trans hkeeps
    rw [addFields_cons, hnumber, hlink, Option.getD_some]
    refine ⟨links', (key, theme.nodes.size) :: more, hnode', ?_, ?_, ?_⟩
    · rw [hentries, hput, List.append_assoc]
      rfl
    · refine .cons hlt (hholds.keep (hlater.mono ?_)) hall
      intro id hle
      exact Nat.ne_of_gt (Nat.lt_of_lt_of_le hlt hle)
    · exact (hkept.mono fun _ _ => trivial).trans hlater

end

/-! ## 4. Walking from a node that holds a value -/

theorem fill_append (out : Table) (found more : List Finding) :
    fill out (found ++ more) = (fill out found).bind fun out => fill out more := by
  induction found generalizing out with
  | nil => rfl
  | cons finding found ih =>
    cases finding with
    | error _ => rfl
    | ok row =>
      rw [List.cons_append, fill, fill]
      cases emit out row.1 row.2 with
      | error _ => rfl
      | ok out' => exact ih out'

theorem fill_singleton (out : Table) (path : Text) (value : Value) :
    fill out [.ok (path, value)] = emit out path value := by
  rw [fill]
  cases emit out path value <;> rfl

theorem findings_leaf {path key : Text} (hv : leafNode? v = some node) :
    findings callableKey path key v =
      (leafValue? callableKey key node).toList.map fun value => .ok (path, value) := by
  cases v with
  | obj fields =>
    obtain ⟨params, hfields, rfl⟩ := Option.map_eq_some_iff.mp hv
    rw [findings, hfields]
    unfold leafValue?
    simp only
    split
    · rfl
    · rfl
  | _ =>
    cases hv
    rw [findings]
    rfl

theorem findings_group {path key : Text} (hfields : callable? fields = none) :
    findings callableKey path key (.obj fields) = fieldFindings callableKey path fields := by
  rw [findings, hfields]

theorem leafNode?_ne_composite {links : OrderedMap NodeId} :
    leafNode? v ≠ some (.composite links) := by
  cases v with
  | obj fields =>
    unfold leafNode?
    cases callable? fields <;> simp
  | _ => simp [leafNode?]

mutual

theorem visit_eq_fill {theme : Theme} {callableKey key : Text} {branch : List NodeId}
    {child : NodeId} {v : Json} (h : theme.Holds child v) (hkey : key ≠ [])
    (hbranch : ∀ b ∈ branch, b < child) (above : Text) (out : Table) :
    visit theme callableKey branch above (key, child) out =
      fill out (findings callableKey (DottedPath.join above key) key v) := by
  cases h with
  | @leaf _ _ node hv hnode =>
    rw [findings_leaf hv]
    cases hvalue : leafValue? callableKey key node with
    | some value =>
      rw [visit_leaf hkey hnode hvalue]
      exact (fill_singleton out _ value).symm
    | none =>
      rw [visit_silent hkey hnode hvalue]
      · rfl
      · rintro links rfl
        exact absurd hv leafNode?_ne_composite
  | @group _ fields links hfields hnode hlinks =>
    rw [findings_group hfields]
    by_cases hempty : links.entries = []
    · rw [hempty] at hlinks
      cases hlinks
      rw [visit_silent hkey hnode rfl]
      · rfl
      · rintro links' heq
        cases heq
        exact hempty
    · have hnew : child ∉ branch := fun hmem => Nat.lt_irrefl child (hbranch child hmem)
      rw [visit_inner hkey hnode hempty hnew]
      refine visitAll_eq_fill hlinks ?_ _ out
      intro b hb
      rcases List.mem_cons.mp hb with rfl | hb
      · exact Nat.le_refl b
      · exact Nat.le_of_lt (hbranch b hb)

/-- **The walk says what the value says.** The branch is numbered up to the parent and each child
    above it, so no child is on the branch. -/
theorem visitAll_eq_fill {theme : Theme} {callableKey : Text} {branch : List NodeId}
    {parent : NodeId} {links : List (Text × NodeId)} {fields : List (Text × Json)}
    (h : theme.HoldsAll parent links fields) (hbranch : ∀ b ∈ branch, b ≤ parent) (above : Text)
    (out : Table) :
    visitAll theme callableKey branch above links out =
      fill out (fieldFindings callableKey above fields) := by
  cases h with
  | nil =>
    rw [visitAll, fieldFindings]
    rfl
  | @cons _ child key v links fields hlt hchild hrest =>
    rw [visitAll, fieldFindings, fill_append]
    by_cases hkey : key = []
    · rw [visit_keyless hkey, if_pos hkey]
      rfl
    · rw [visit_eq_fill hchild hkey (fun b hb => Nat.lt_of_le_of_lt (hbranch b hb) hlt), if_neg hkey]
      exact congrArg _ (funext fun out => visitAll_eq_fill hrest hbranch above out)

end

/-! ## 5. The two ways agree -/

theorem params?_eq_some_iff {params : List Text} :
    params? v = some params ↔ (v = .null ∧ params = []) ∨ v = .arr (params.map .str) := by
  cases v with
  | null => simp [params?, eq_comm]
  | arr items =>
    simp only [params?, reduceCtorEq, false_and, false_or, Json.arr.injEq]
    induction items generalizing params with
    | nil => cases params <;> simp
    | cons item items ih =>
      cases params with
      | nil => cases item <;> simp [Option.bind_eq_some_iff]
      | cons first params => cases item <;> simp [Option.bind_eq_some_iff, ih, and_comm]
  | _ => simp [params?]

/-- An object stands for a function exactly when it has the form of one. -/
theorem exists_callable?_iff :
    (∃ params, callable? fields = some params) ↔ (Json.obj fields).IsFunction := by
  constructor
  · intro h
    obtain ⟨params, h⟩ := h
    unfold callable? at h
    split at h
    · obtain ⟨rfl, h⟩ := Option.ite_none_right_eq_some.mp h
      rcases params?_eq_some_iff.mp h with ⟨rfl, -⟩ | rfl
      · exact .inl rfl
      · exact .inr ⟨params, rfl⟩
    · cases h
  · intro h
    rcases h with h | ⟨params, h⟩
    · cases h
      exact ⟨[], rfl⟩
    · cases h
      refine ⟨params, ?_⟩
      simp only [callable?, if_true]
      exact params?_eq_some_iff.mpr (.inr rfl)

mutual

/-- The only defect that is found on the way down is a missing key. -/
theorem flaw_of_mem_findings {callableKey path key : Text} {d : Defect} (v : Json)
    (h : .error d ∈ findings callableKey path key v) : d.flaw = .emptyKey := by
  match v with
  | .obj fields =>
    unfold findings at h
    split at h
    · split at h <;> simp at h
    · exact flaw_of_mem_fieldFindings fields h
  | .null | .bool _ | .num _ | .str _ | .arr _ => simp [findings] at h

theorem flaw_of_mem_fieldFindings {callableKey above : Text} {d : Defect}
    (fields : List (Text × Json)) (h : .error d ∈ fieldFindings callableKey above fields) :
    d.flaw = .emptyKey := by
  match fields with
  | [] => simp [fieldFindings] at h
  | (key, v) :: fields =>
    rw [fieldFindings] at h
    rcases List.mem_append.mp h with h | h
    · split at h
      · cases List.mem_singleton.mp h
        rfl
      · exact flaw_of_mem_findings v h
    · exact flaw_of_mem_fieldFindings fields h

end

theorem emit_eq_error {out : Table} {path : Text} {value : Value} {d : Defect}
    (h : emit out path value = .error d) : d.flaw = .duplicatePath := by
  unfold emit at h
  split at h
  · cases h
    rfl
  · cases h

theorem fill_eq_error {out : Table} {found : List Finding} {d : Defect}
    (h : fill out found = .error d) : .error d ∈ found ∨ d.flaw = .duplicatePath := by
  induction found generalizing out with
  | nil => cases h
  | cons finding found ih =>
    cases finding with
    | error defect =>
      cases h
      exact .inl List.mem_cons_self
    | ok row =>
      rw [fill] at h
      cases hemit : emit out row.1 row.2 with
      | error defect =>
        rw [hemit] at h
        cases h
        exact .inr (emit_eq_error hemit)
      | ok out' =>
        rw [hemit] at h
        exact (ih h).imp_left (List.mem_cons_of_mem _)

/-- A node that holds an object flattens to the object's table when it is the root. -/
theorem flatten_of_holds (h : theme.Holds theme.root (.obj fields)) (callableKey : Text) :
    theme.flatten callableKey = (Json.obj fields).tabulate callableKey := by
  cases h with
  | leaf hv hnode =>
    obtain ⟨params, hfields, rfl⟩ := Option.map_eq_some_iff.mp hv
    rw [flatten, hnode, Json.tabulate, hfields]
  | group hfields hnode hlinks =>
    rw [flatten_composite hnode, Json.tabulate, hfields]
    refine visitAll_eq_fill hlinks ?_ [] ∅
    intro b hb
    exact Nat.le_of_eq (List.mem_singleton.mp hb)

theorem exists_ofJson (h : (Json.obj fields).KeysDistinct) :
    ∃ theme, ofJson (.obj fields) = .ok theme ∧ theme.Holds theme.root (.obj fields) := by
  obtain ⟨hnumber, -, hholds⟩ := holds_addJson ⟨#[], 0⟩ (.obj fields) h
  refine ⟨_, rfl, ?_⟩
  show Holds _ (addJson ⟨#[], 0⟩ (.obj fields)).1 (.obj fields)
  rw [hnumber]
  -- naming a root changes no node
  exact hholds.keep fun _ _ _ hnode => hnode

/-- **Flattening the graph of a JSON object is recursion on the object**: the same table, or the same
    defect at the same path. So no node of it is ever missing or comes up again on its own branch,
    and the root is refused exactly when the object has the form of a function. -/
theorem flatten_ofJson_eq_tabulate (h : (Json.obj fields).KeysDistinct) :
    ∃ theme, ofJson (.obj fields) = .ok theme ∧ ∀ callableKey,
      theme.flatten callableKey = (Json.obj fields).tabulate callableKey ∧
      (∀ d, theme.flatten callableKey = .error d →
        d.flaw = .emptyKey ∨ d.flaw = .duplicatePath ∨ d.flaw = .rootNotComposite) ∧
      ∀ path, theme.flatten callableKey = .error ⟨path, .rootNotComposite⟩ ↔
        path = [] ∧ (Json.obj fields).IsFunction := by
  obtain ⟨theme, htheme, hholds⟩ := exists_ofJson h
  refine ⟨theme, htheme, fun callableKey => ?_⟩
  rw [flatten_of_holds hholds, ← exists_callable?_iff, Json.tabulate]
  cases hfields : callable? fields with
  | some params =>
    refine ⟨rfl, ?_, ?_⟩
    · rintro d hd
      cases hd
      exact .inr (.inr rfl)
    · intro path
      simp [eq_comm]
  | none =>
    have herror : ∀ d, fill ∅ (fieldFindings callableKey [] fields) = .error d →
        d.flaw = .emptyKey ∨ d.flaw = .duplicatePath := by
      intro d hd
      exact (fill_eq_error hd).imp_left (flaw_of_mem_fieldFindings fields)
    refine ⟨rfl, fun d hd => (herror d hd).imp_right .inl, ?_⟩
    intro path
    constructor
    · intro hroot
      rcases herror _ hroot with hflaw | hflaw <;> cases hflaw
    · rintro ⟨-, params, hparams⟩
      cases hparams

/-- In `a` the marker is an ordinary key, since it is not the only one, and below `s` it makes a
    function. The key `a.l` then stands in the way of `l` in `a`. -/
theorem flatten_ofJson_eq_tabulate_marker :
    let fields : List (Text × Json) :=
      [(['a'], .obj [(callableMarker, .null), (['s'], .obj [(callableMarker, .arr [.str ['n']])]),
        (['l'], .arr [.null])]), (['e'], .obj []), (['a', '.', 'l'], .bool true)]
    (Json.obj fields).KeysDistinct ∧ ∃ theme, ofJson (.obj fields) = .ok theme ∧
      theme.flatten ['s'] = (Json.obj fields).tabulate ['s'] ∧
      theme.flatten ['s'] = .error ⟨['a', '.', 'l'], .duplicatePath⟩ := by
  intro fields
  have h : (Json.obj fields).KeysDistinct :=
    ⟨by decide, ⟨by decide, trivial, ⟨by decide, trivial, trivial⟩, trivial, trivial⟩,
      ⟨by decide, trivial⟩, trivial, trivial⟩
  obtain ⟨theme, htheme, hflatten⟩ := flatten_ofJson_eq_tabulate h
  obtain ⟨hsame, -, -⟩ := hflatten ['s']
  refine ⟨h, theme, htheme, hsame, ?_⟩
  rw [hsame]
  rfl

end Theme

end ThemeLens
