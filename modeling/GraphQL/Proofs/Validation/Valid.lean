import Mathlib
import GraphQL.Proofs.Merging.Places
import GraphQL.Proofs.Merging.Plans
import GraphQL.Proofs.Traversal.Heights
import GraphQL.Proofs.Validation.Quiet

/-!
# Valid documents

What is known of a document in which validation finds nothing: it consists of operations
and fragments (`Document.isSome_rootOf?`), its fragments have different names
(`Document.nodup_fragmentNames`), no field of it has two arguments of one name
(`Document.nodup_argumentNames`), and the search for fields that cannot be merged finds
none (`Document.search?_of_isValid`).
-/

namespace GraphQL

variable {schema : Schema} {document : Document}

/-! ## Lower nodes -/

/-- A node is among the children of another, and lower. -/
structure Node.Lower (node child : Node) : Prop where
  hasChild : node.HasChild child
  height_lt : child.height < node.height

namespace Node.Lower

open Node (hasChild_iff)

theorem definition {d : Definition} (h : d ∈ document.definitions) :
    Node.Lower (.document document) (.definition d) := by
  refine ⟨hasChild_iff.mpr ⟨.definitions, List.mem_singleton_self _, ?_⟩, ?_⟩
  · exact List.mem_map_of_mem h
  · exact Nat.lt_succ_of_le (le_maxHeight Definition.height h)

theorem root {s : Merging.Setting} {d : Definition} {parent : Option TypeDef}
    {set : SelectionSet} (h : Merging.rootOf? s d = some (parent, set)) :
    Node.Lower (.definition d) (.selectionSet set) := by
  cases d with
  | operation d =>
      obtain ⟨-, rfl⟩ : _ ∧ d.selectionSet = set := by simpa [Merging.rootOf?] using h
      refine ⟨hasChild_iff.mpr ⟨.selectionSet, by simp [Node.kind, Definition.kind, NodeKind.slots],
        List.mem_singleton_self _⟩, ?_⟩
      simp only [Node.height, Definition.height]
      omega
  | fragment d =>
      obtain ⟨-, rfl⟩ : _ ∧ d.selectionSet = set := by simpa [Merging.rootOf?] using h
      refine ⟨hasChild_iff.mpr ⟨.selectionSet, by simp [Node.kind, Definition.kind, NodeKind.slots],
        List.mem_singleton_self _⟩, ?_⟩
      simp only [Node.height, Definition.height]
      omega
  | _ => simp [Merging.rootOf?] at h

theorem selection {selection : Selection} {set : SelectionSet} (h : selection ∈ set.selections) :
    Node.Lower (.selectionSet set) (.selection selection) :=
  ⟨hasChild_iff.mpr ⟨.selections, List.mem_singleton_self _, List.mem_map_of_mem h⟩,
    SelectionSet.height_lt_of_mem h⟩

theorem inner {selection : Selection} {set : SelectionSet}
    (h : Merging.innerSet? selection = some set) :
    Node.Lower (.selection selection) (.selectionSet set) := by
  cases selection with
  | field f =>
      obtain ⟨keyAlias, name, arguments, directives, set?, span⟩ := f
      obtain rfl : set? = some set := h
      refine ⟨hasChild_iff.mpr ⟨.selectionSet, by simp [Node.kind, Selection.kind, NodeKind.slots],
        List.mem_singleton_self _⟩, ?_⟩
      simp only [Node.height, Selection.height, SelectionSet.heightSelections,
        SelectionSet.heightOption]
      omega
  | inline f =>
      obtain ⟨condition, directives, set', span⟩ := f
      obtain rfl : set' = set := Option.some.inj h
      refine ⟨hasChild_iff.mpr ⟨.selectionSet, by simp [Node.kind, Selection.kind, NodeKind.slots],
        List.mem_singleton_self _⟩, ?_⟩
      simp only [Node.height, Selection.height, SelectionSet.heightSelections]
      omega
  | spread f => simp [Merging.innerSet?] at h

end Node.Lower

/-! ## What a valid document is like -/

theorem Rule.Quiet.of_lower {rule : Rule} {depth : ℕ} {node child : Node}
    (h : rule.Quiet schema document depth node) (hendures : rule.Endures)
    (hpasses : rule.Passes node) (hdepth : node.height ≤ depth) (hlower : node.Lower child) :
    ∃ depth, child.height ≤ depth ∧ rule.Quiet schema document depth child := by
  obtain ⟨depth, rfl⟩ := Nat.exists_eq_succ_of_ne_zero
    (Nat.ne_zero_of_lt (hlower.height_lt.trans_le hdepth))
  exact ⟨depth, Nat.le_of_lt_succ (hlower.height_lt.trans_le hdepth),
    h.of_hasChild hendures hpasses hlower.hasChild⟩

/-- A rule that goes down to all selection sets, and finds nothing in a document, finds
nothing in any of its sets. -/
theorem Rule.Quiet.of_setAt? {rule : Rule} {s : Merging.Setting} {depth : ℕ}
    {place : Place} {set : SelectionSet} (hendures : rule.Endures)
    (hpasses : ∀ node : Node, node.kind ≠ .argument → rule.Passes node)
    (hquiet : rule.Quiet schema document depth (.document document))
    (hdepth : (Node.document document).height ≤ depth)
    (h : Merging.setAt? s document place = some set) :
    ∃ depth, (Node.selectionSet set).height ≤ depth ∧
      rule.Quiet schema document depth (.selectionSet set) := by
  induction place generalizing set with
  | nil => simp [Merging.setAt?] at h
  | cons index outer ih =>
      cases outer with
      | nil =>
          obtain ⟨⟨parent, root⟩, hroot, rfl⟩ := Option.map_eq_some_iff.mp h
          obtain ⟨definition, hdefinition, hroot⟩ := Option.bind_eq_some_iff.mp hroot
          obtain ⟨depth, hdepth, hquiet⟩ :=
            hquiet.of_lower hendures (hpasses _ (by simp [Node.kind])) hdepth
              (.definition (List.mem_of_getElem? hdefinition))
          exact hquiet.of_lower hendures
            (hpasses _ (by cases definition <;> simp [Node.kind, Definition.kind])) hdepth
            (.root hroot)
      | cons first rest =>
          obtain ⟨around, haround, hset⟩ := Option.bind_eq_some_iff.mp h
          obtain ⟨selection, hselection, hinner⟩ := Option.bind_eq_some_iff.mp hset
          obtain ⟨depth, hdepth, hquiet⟩ := ih haround
          obtain ⟨depth, hdepth, hquiet⟩ :=
            hquiet.of_lower hendures (hpasses _ (by simp [Node.kind])) hdepth
              (.selection (List.mem_of_getElem? hselection))
          exact hquiet.of_lower hendures
            (hpasses _ (by cases selection <;> simp [Node.kind, Selection.kind])) hdepth
            (.inner hinner)

theorem exists_mem_of_mapM {α β : Type} {f : α → Option β} {items : List α} {results : List β}
    {item : α} (h : items.mapM f = some results) (hmem : item ∈ items) :
    ∃ result ∈ results, f item = some result := by
  induction items generalizing results with
  | nil => cases hmem
  | cons first rest ih =>
      rw [List.mapM_cons] at h
      obtain ⟨result, hresult, h⟩ := Option.bind_eq_some_iff.mp h
      obtain ⟨others, hothers, h⟩ := Option.bind_eq_some_iff.mp h
      obtain rfl := Option.some.inj h
      rcases List.mem_cons.mp hmem with rfl | hmem
      · exact ⟨result, List.mem_cons_self, hresult⟩
      · obtain ⟨other, hother, heq⟩ := ih hothers hmem
        exact ⟨other, List.mem_cons_of_mem _ hother, heq⟩

theorem isSome_mapM_iff {α β : Type} {f : α → Option β} {items : List α} :
    (items.mapM f).isSome ↔ ∀ item ∈ items, (f item).isSome := by
  induction items with
  | nil => simp
  | cons item rest ih =>
      rw [List.mapM_cons, List.forall_mem_cons, ← ih]
      cases f item <;> cases rest.mapM f <;> simp

theorem mapM_eq_some_map {α β : Type} {f : α → Option β} {g : α → β} {items : List α}
    (h : ∀ item ∈ items, f item = some (g item)) : items.mapM f = some (items.map g) := by
  induction items with
  | nil => rfl
  | cons item rest ih =>
      obtain ⟨hitem, hrest⟩ := List.forall_mem_cons.mp h
      rw [List.mapM_cons, hitem, ih hrest]
      rfl

/-- The search for fields that cannot be merged is the only survey of a rule that may have no
end. -/
theorem Rule.survey?_of_mem_all :
    ∀ rule ∈ Rule.all, rule.survey? = (fun _ _ => some []) ∨ rule.survey? = Merging.search? := by
  simp only [Rule.all, List.forall_mem_cons, List.not_mem_nil, false_imp_iff, implies_true,
    and_true]
  and_intros
  all_goals first | exact Or.inl rfl | exact Or.inr rfl

namespace Document

/-- The document that a text is, or an empty one if it is none. -/
def ofText (text : String) : Document :=
  ((Document.parse ⟨text, Source.defaultName⟩ {}).toOption).getD { definitions := [] }

/-- Validation of the document ends, and finds nothing. -/
def IsValid (schema : Schema) (document : Document) : Prop :=
  document.validate? schema = some []

/-- The rule finds nothing in the document. -/
def Satisfies (schema : Schema) (document : Document) (rule : Rule) : Prop :=
  document.alone? schema rule = some []

/-- What some rules find together they find on their own, so if it is nothing, each of them finds
nothing. -/
theorem satisfies_of_errorsOf? {rules : List Rule} {rule : Rule}
    (h : document.errorsOf? schema rules = some []) (hrule : rule ∈ rules) :
    document.Satisfies schema rule := by
  obtain ⟨each, heach, hperm⟩ := perm_of_errorsOf? h
  obtain ⟨errors, hmem, herrors⟩ := exists_mem_of_mapM heach hrule
  rw [Satisfies, herrors, List.flatten_eq_nil_iff.mp hperm.nil_eq.symm errors hmem]

/-- No rule finds anything in a valid document. -/
theorem satisfies_of_isValid (h : document.IsValid schema) {rule : Rule} (hrule : rule ∈ Rule.all) :
    document.Satisfies schema rule := by
  obtain ⟨found, hfound, hnone⟩ := Option.map_eq_some_iff.mp h
  obtain rfl := List.map_eq_nil_iff.mp hnone
  exact satisfies_of_errorsOf? hfound hrule

/-- Rules find nothing in a document if none of them does on its own. -/
theorem validate?_of_satisfies {rules : List Rule}
    (h : ∀ rule ∈ rules, document.Satisfies schema rule) :
    document.validate? schema rules = some [] := by
  have hlanes : (rules.mapM (document.lane? schema)).isSome := by
    refine isSome_mapM_iff.mpr fun rule hrule => ?_
    obtain ⟨surveyed, hsurveyed, -⟩ := Option.bind_eq_some_iff.mp (h rule hrule)
    simp [lane?, hsurveyed]
  obtain ⟨found, hfound⟩ : ∃ found, document.errorsOf? schema rules = some found := by
    obtain ⟨visitors, hvisitors⟩ := Option.isSome_iff_exists.mp hlanes
    exact ⟨_, by rw [errorsOf?, hvisitors]; rfl⟩
  obtain ⟨each, heach, hperm⟩ := perm_of_errorsOf? hfound
  rw [mapM_eq_some_map h] at heach
  obtain rfl := Option.some.inj heach
  have hnone : (rules.map fun _ : Rule => ([] : List ValidationError)).flatten = [] := by simp
  rw [hnone] at hperm
  rw [validate?, hfound, hperm.eq_nil]
  rfl

/-- A document is valid if a search of limited depth comes to an end in it without conflicts, and
no rule finds anything else.  Both can be evaluated. -/
theorem isValid_of_all (depth : ℕ)
    (hsearch : ((Merging.answerWithin (Merging.plan (.ofDocument schema document)) depth).carryOut
      (Merging.documentPlan schema document) {}).any (·.1.isEmpty) = true)
    (hrules : (Rule.all.all fun rule => (rule.alone schema document
      ((Node.document document).height + Traversal.growth) (.document document) {}
        {}).errors.isEmpty) = true) : document.IsValid schema := by
  have hfound : Merging.search? schema document = some [] := by
    obtain ⟨⟨found, memory⟩, hrun, hempty⟩ := (Option.any_eq_true _ _).mp hsearch
    obtain rfl : found = [] := List.isEmpty_iff.mp hempty
    rw [Merging.search?, Merging.run_of_carryOut depth hrun]
    rfl
  refine validate?_of_satisfies fun rule hrule => ?_
  have hnone := List.isEmpty_iff.mp (List.all_eq_true.mp hrules rule hrule)
  have hsurvey : rule.survey? schema document = some [] := by
    rcases Rule.survey?_of_mem_all rule hrule with h | h
    · rw [h]
    · rw [h, hfound]
  rw [Satisfies, alone?, hsurvey]
  exact congrArg some hnone

/-- What a rule finds that finds nothing in a document, from the root down. -/
theorem exists_alone_eq_nil {rule : Rule} (h : document.Satisfies schema rule) :
    ∃ depth surveyed, (Node.document document).height ≤ depth + 2 ∧
      rule.survey? schema document = some surveyed ∧
      (rule.alone schema document (depth + 2) (.document document) {} { surveyed }).errors = [] := by
  obtain ⟨surveyed, hsurveyed, halone⟩ := Option.bind_eq_some_iff.mp h
  obtain ⟨more, hgrowth⟩ := Nat.exists_eq_add_of_le (show 2 ≤ Traversal.growth by decide)
  refine ⟨(Node.document document).height + more, surveyed, by omega, hsurveyed, ?_⟩
  rw [Nat.add_assoc, Nat.add_comm more, ← hgrowth]
  exact Option.some.inj halone

theorem search?_of_isValid (h : document.IsValid schema) :
    Merging.search? schema document = some [] := by
  obtain ⟨depth, found, -, hfound, halone⟩ := exists_alone_eq_nil
    (satisfies_of_isValid h (show Rule.overlappingFieldsCanBeMerged ∈ _ by simp [Rule.all]))
  rw [Rule.alone_of_stop rfl rfl] at halone
  obtain rfl : found = [] := halone
  exact hfound

/-- A document that can be executed consists of operations and fragments. -/
theorem isSome_rootOf? (h : document.Satisfies schema Rule.executableDefinitions)
    (s : Merging.Setting) {d : Definition} (hd : d ∈ document.definitions) :
    (Merging.rootOf? s d).isSome := by
  obtain ⟨depth, _, -, -, halone⟩ := exists_alone_eq_nil h
  rw [Rule.alone_of_stop rfl rfl] at halone
  have hnone := List.filterMap_eq_nil_iff.mp halone d hd
  cases d <;> simp_all [Merging.rootOf?, Definition.typeSystemName?]

/-- The name that a definition gives a fragment. -/
def fragmentName? : Node → Option String
  | .definition (.fragment d) => some d.name.text
  | _ => none

theorem placedChildren_eq (document : Document) :
    (Node.document document).placedChildren =
      document.definitions.zipIdx.map fun (d, index) =>
        (.definitions, index, .definition d) := by
  simp [Node.placedChildren, Node.kind, NodeKind.slots, Node.children, Node.contents,
    Contents.many, List.zipIdx_map, Part.toNode]

/-- A rule that at a node only meets a name. -/
theorem alone_of_meetName {rule : Rule} {depth : ℕ} {node : Node} {c : TypeContext}
    {memory : RuleMemory} {part : NamedPart} {name : String} {first again : Option Span}
    (h : rule.enter { schema, document, types := c.enter schema node } node memory =
      (.andSkip (RuleMemory.meetName part name first again memory).1,
        (RuleMemory.meetName part name first again memory).2)) :
    rule.alone schema document (depth + 1) node c memory =
      ⟨(RuleMemory.meetName part name first again memory).1,
        (RuleMemory.meetName part name first again memory).2, false⟩ :=
  Rule.alone_of_skip h rfl

theorem nodup_fragmentNames (hexecutable : document.Satisfies schema Rule.executableDefinitions)
    (h : document.Satisfies schema Rule.uniqueFragmentNames) :
    ((Merging.placedFragments document).map (·.1)).Nodup := by
  obtain ⟨depth, _, -, -, halone⟩ := exists_alone_eq_nil h
  have hbelow := Rule.aloneEach_errors_eq_nil rfl rfl halone
  have hnames : ((Node.document document).placedChildren.filterMap fun entry =>
      fragmentName? entry.2.2) = (Merging.placedFragments document).map (·.1) := by
    rw [placedChildren_eq, Merging.placedFragments, List.filterMap_map, List.map_filterMap]
    refine List.filterMap_congr ?_
    rintro ⟨d, index⟩ -
    cases d <;> rfl
  rw [← hnames]
  refine (Rule.nodup_of_findEach (fun entry hentry c memory => ?_) hbelow).1
  rw [placedChildren_eq] at hentry
  obtain ⟨⟨d, index⟩, hd, rfl⟩ := List.mem_map.mp hentry
  have hroot := isSome_rootOf? hexecutable (.ofDocument schema document)
    (List.mem_of_getElem? (List.mem_zipIdx_iff_getElem?.mp hd))
  cases d with
  | operation d =>
      rw [Rule.alone_of_skip rfl rfl]
      exact ⟨rfl, fun _ => rfl⟩
  | fragment d =>
      rw [alone_of_meetName rfl]
      exact ⟨rfl, fun hnone => Rule.meets_of_meetName (Prod.ext hnone rfl)⟩
  | _ => simp [Merging.rootOf?] at hroot

theorem nodup_fragmentNames_of_isValid (h : document.IsValid schema) :
    ((Merging.placedFragments document).map (·.1)).Nodup :=
  nodup_fragmentNames (satisfies_of_isValid h (by simp [Rule.all]))
    (satisfies_of_isValid h (by simp [Rule.all]))

/-- The name that an argument is given to. -/
def argumentName? : Node → Option String
  | .argument a => some a.name.text
  | _ => none

theorem passes_uniqueArgumentNames (node : Node) (hnode : node.kind ≠ .argument) :
    Rule.uniqueArgumentNames.Passes node := by
  intro scope memory
  cases node with
  | selection s => cases s <;> rfl
  | argument a => exact absurd rfl hnode
  | _ => rfl

theorem endures_uniqueArgumentNames : Rule.uniqueArgumentNames.Endures := by
  intro scope node memory
  constructor
  · cases node with
    | selection s => cases s <;> exact RuleAction.noConfusion
    | _ => exact RuleAction.noConfusion
  · exact RuleAction.noConfusion

/-- A rule that passes over a name says nothing of it. -/
theorem alone_name {rule : Rule} {depth : ℕ} {name : Name} {c : TypeContext} {memory : RuleMemory}
    (henter : ∀ scope, rule.enter scope (.name name) memory = (.proceed, memory))
    (hleave : ∀ scope, rule.leave scope (.name name) memory = (.proceed, memory)) :
    rule.alone schema document (depth + 1) (.name name) c memory = ⟨[], memory, false⟩ := by
  have hchildren : (Node.name name).placedChildren = [] := rfl
  rw [Rule.alone_of_proceed (henter _) rfl]
  simp [hchildren, Rule.findEach, hleave, Finding.proceed]

/-- Where a rule passes over names, and finds nothing at children at which it meets other names,
it has met different ones. -/
theorem nodup_names {rule : Rule} {depth : ℕ} {c : TypeContext} {memory : RuleMemory}
    {name? : Node → Option String} {children : List (Slot × ℕ × Node)}
    (hpasses : ∀ (name : Name) scope memory,
      rule.enter scope (.name name) memory = (.proceed, memory) ∧
        rule.leave scope (.name name) memory = (.proceed, memory))
    (hchildren : ∀ entry ∈ children,
      (∃ name, entry.2.2 = .name name ∧ name? entry.2.2 = none) ∨
      ∃ part name first again, name? entry.2.2 = some name ∧ ∀ scope memory,
        rule.enter scope entry.2.2 memory =
          (.andSkip (RuleMemory.meetName part name first again memory).1,
            (RuleMemory.meetName part name first again memory).2))
    (h : (rule.aloneEach schema document (depth + 1) children c memory).errors = []) :
    (children.filterMap fun entry => name? entry.2.2).Nodup := by
  refine (Rule.nodup_of_findEach (fun entry hentry c memory => ?_) h).1
  rcases hchildren entry hentry with ⟨name, hnode, hnone⟩ | ⟨part, name, first, again, hname, hmeet⟩
  · rw [hnone, hnode, alone_name (fun scope => (hpasses name scope memory).1)
      fun scope => (hpasses name scope memory).2]
    exact ⟨rfl, fun _ => rfl⟩
  · rw [hname, alone_of_meetName (hmeet _ _)]
    exact ⟨rfl, fun hnone => Rule.meets_of_meetName (Prod.ext hnone rfl)⟩

/-- Items among the children of a node, in their slot. -/
def placed {α : Type} (slot : Slot) (toNode : α → Node) (items : List α) :
    List (Slot × ℕ × Node) :=
  items.zipIdx.map fun (item, index) => (slot, index, toNode item)

theorem exists_of_mem_placed {α : Type} {slot : Slot} {toNode : α → Node} {items : List α}
    {entry : Slot × ℕ × Node} (h : entry ∈ placed slot toNode items) :
    ∃ item ∈ items, entry.2.2 = toNode item := by
  obtain ⟨⟨item, index⟩, hitem, rfl⟩ := List.mem_map.mp h
  exact ⟨item, List.fst_mem_of_mem_zipIdx hitem, rfl⟩

/-- The names of items that come after children without names. -/
theorem filterMap_append_placed {α : Type} {slot : Slot} {toNode : α → Node} {items : List α}
    {names : List (Slot × ℕ × Node)} {name? : Node → Option String} {nameOf : α → String}
    (hnames : ∀ entry ∈ names, name? entry.2.2 = none)
    (hitems : ∀ item, name? (toNode item) = some (nameOf item)) :
    ((names ++ placed slot toNode items).filterMap fun entry => name? entry.2.2) =
      items.map nameOf := by
  rw [List.filterMap_append, List.filterMap_eq_nil_iff.mpr hnames, List.nil_append, placed,
    List.filterMap_map]
  calc items.zipIdx.filterMap (fun entry => name? (toNode entry.1))
      = items.zipIdx.filterMap (fun entry => some (nameOf entry.1)) :=
        List.filterMap_congr fun entry _ => hitems entry.1
    _ = (items.zipIdx.map Prod.fst).map nameOf := by
        rw [List.filterMap_eq_map', List.map_map]
        rfl
    _ = items.map nameOf := by rw [List.zipIdx_map_fst]

/-- The arguments of a field come right after its names. -/
theorem exists_placedChildren_eq (f : Field) : ∃ names rest,
    (Node.selection (.field f)).placedChildren =
        (names ++ placed .arguments Node.argument f.arguments) ++ rest ∧
      ∀ entry ∈ names, ∃ name, entry.2.2 = .name name := by
  let inSlot (slot : Slot) : List (Slot × ℕ × Node) :=
    ((Node.selection (.field f)).children slot).zipIdx.map fun entry =>
      (slot, entry.2, entry.1)
  have harguments : inSlot .arguments = placed .arguments Node.argument f.arguments := by
    simp [inSlot, placed, Node.children, Node.contents, Node.selectionContents, Contents.many,
      List.zipIdx_map, Part.toNode]
  refine ⟨inSlot .responseName ++ inSlot .name, inSlot .directives ++ inSlot .selectionSet,
    ?_, ?_⟩
  · rw [← harguments]
    simp [Node.placedChildren, Node.kind, Selection.kind, NodeKind.slots, inSlot]
  · intro entry hentry
    rcases List.mem_append.mp hentry with hentry | hentry <;>
      obtain ⟨⟨child, index⟩, hchild, rfl⟩ := List.mem_map.mp hentry
    · obtain ⟨name, -, rfl⟩ := List.mem_map.mp (List.fst_mem_of_mem_zipIdx hchild)
      exact ⟨name, rfl⟩
    · obtain rfl := List.mem_singleton.mp (List.fst_mem_of_mem_zipIdx hchild)
      exact ⟨_, rfl⟩

theorem nodup_argumentNames (h : document.Satisfies schema Rule.uniqueArgumentNames)
    {s : Merging.Setting}
    {place : Place} {set : SelectionSet} {f : Field}
    (hset : Merging.setAt? s document place = some set) (hf : .field f ∈ set.selections) :
    (f.arguments.map (·.name.text)).Nodup := by
  obtain ⟨depth, _, hdepth, -, halone⟩ := exists_alone_eq_nil h
  obtain ⟨depth, hdepth, hquiet⟩ := Rule.Quiet.of_setAt? endures_uniqueArgumentNames
    passes_uniqueArgumentNames ⟨_, _, halone⟩ hdepth hset
  obtain ⟨depth, hdepth, c, memory, hquiet⟩ := hquiet.of_lower endures_uniqueArgumentNames
    (passes_uniqueArgumentNames _ (by simp [Node.kind])) hdepth (.selection hf)
  obtain ⟨depth, rfl⟩ : ∃ d, depth = d + 2 := by
    refine Nat.exists_eq_add_of_le' (le_trans ?_ hdepth)
    obtain ⟨keyAlias, name, arguments, directives, set?, span⟩ := f
    simp [Node.height, Selection.height, SelectionSet.heightSelections]
  have hbelow := Rule.aloneEach_errors_eq_nil rfl rfl hquiet
  obtain ⟨names, rest, hchildren, hnames⟩ := exists_placedChildren_eq f
  rw [hchildren] at hbelow
  have hbelow := Rule.findEach_errors_eq_nil_of_append hbelow
  have hnone (entry : Slot × ℕ × Node) (hentry : entry ∈ names) :
      ∃ name, entry.2.2 = .name name ∧ argumentName? entry.2.2 = none := by
    obtain ⟨name, hname⟩ := hnames entry hentry
    exact ⟨name, hname, hname ▸ rfl⟩
  rw [← filterMap_append_placed (fun entry hentry => (hnone entry hentry).choose_spec.2)
    fun a => (rfl : argumentName? (.argument a) = some a.name.text)]
  refine nodup_names (fun _ _ _ => ⟨rfl, rfl⟩) (fun entry hentry => ?_) hbelow
  rcases List.mem_append.mp hentry with hentry | hentry
  · exact Or.inl (hnone entry hentry)
  · obtain ⟨a, -, hnode⟩ := exists_of_mem_placed hentry
    exact Or.inr ⟨.argument, a.name.text, a.name.span, a.name.span, hnode ▸ rfl,
      fun scope memory => hnode ▸ rfl⟩

end Document

end GraphQL
