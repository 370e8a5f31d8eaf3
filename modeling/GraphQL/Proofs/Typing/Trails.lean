import Mathlib
import GraphQL.Proofs.Traversal.Trails
import GraphQL.Proofs.Typing.Contexts
import GraphQL.Typing.Visitor

/-!
# The types along a trail

The type context at a node is that of the trail to it: what the nodes above add, one after
the other, and then the node itself.  `Guide.typed` is a guide that calls a visitor with
just that, and a visitor under `Visitor.typed` is called with the same at every node
(`Visitor.visit_typed_eq_along`), whatever it did at other nodes before.

Five lists of a context grow with a node and shrink again, and `SameLists.leave` says so.  The
directive, the argument and the enum value are not in lists: leaving a node forgets them,
where it should bring back what was there before.  That makes no difference as long as
nothing was there (`TypeContext.Ready`), which is so since the parts of a directive hold no
directives, the parts of an argument hold no arguments, and enum values hold nothing.
-/

namespace GraphQL

/-! ## Directives, arguments and what they hold -/

/-- Where a node may stand: anywhere (0), also in a directive (1), or also in an
argument (2). -/
def Node.rank : Node → ℕ
  | .argument _ => 1
  | .name _ | .value _ | .objectField _ => 2
  | _ => 0

/-- The least rank of what a node holds. -/
def Node.rankBelow : Node → ℕ
  | .directive _ => 1
  | .argument _ | .name _ | .value _ | .objectField _ => 2
  | _ => 0

namespace Contents

variable {α : Type} [Part α] {P : Node → Prop}

/-- All that stands in a slot, or may take a place there, is of a certain sort. -/
structure Holds (P : Node → Prop) (contents : Contents) : Prop where
  nodes : ∀ node ∈ contents.nodes, P node
  replace : ∀ index part, (contents.replace? index part).isSome → P part

theorem holds_none : none.Holds P where
  nodes _ h := absurd h List.not_mem_nil
  replace _ _ h := absurd h Bool.false_ne_true

theorem holds_many (parts : List α) (rebuild : List α → Node)
    (hpart : ∀ part : α, P (Part.toNode part))
    (hnode : ∀ node (part : α), Part.ofNode? node = some part → P node) :
    (many parts rebuild).Holds P where
  nodes node h := by
    obtain ⟨part, -, rfl⟩ := List.mem_map.mp h
    exact hpart part
  replace index node h := by
    obtain ⟨_, h⟩ := Option.isSome_iff_exists.mp h
    obtain ⟨-, part, hof, -⟩ := Part.put_eq_ok_iff.mp (replace?_eq_some_iff.mp h)
    exact hnode node part hof

theorem holds_one {part : α} {rebuild : α → Node} (hpart : P (Part.toNode part))
    (hnode : ∀ node (part : α), Part.ofNode? node = some part → P node) :
    (one part rebuild).Holds P where
  nodes node h := by
    cases List.mem_singleton.mp h
    exact hpart
  replace index node h := by
    obtain ⟨_, h⟩ := Option.isSome_iff_exists.mp h
    obtain ⟨-, part, hof, -⟩ := Part.put_eq_ok_iff.mp (replace?_eq_some_iff.mp h)
    exact hnode node part hof

end Contents

namespace Node

open Contents

theorem rank_of_name {node : Node} {n : Name} (h : Part.ofNode? node = some n) :
    2 ≤ node.rank := by
  cases node with
  | name => exact le_refl 2
  | _ => cases h

theorem rank_of_value {node : Node} {v : Value} (h : Part.ofNode? node = some v) :
    2 ≤ node.rank := by
  cases node with
  | value => exact le_refl 2
  | _ => cases h

theorem rank_of_objectField {node : Node} {f : ObjectField} (h : Part.ofNode? node = some f) :
    2 ≤ node.rank := by
  cases node with
  | objectField => exact le_refl 2
  | _ => cases h

theorem rank_of_argument {node : Node} {a : Argument} (h : Part.ofNode? node = some a) :
    1 ≤ node.rank := by
  cases node with
  | argument => exact le_refl 1
  | _ => cases h

theorem rank_lt_of_rankBelow_lt (node : Node) (h : node.rankBelow < 2) : node.rank < 1 := by
  cases node with
  | argument => exact absurd h (lt_irrefl 2)
  | name => exact absurd h (lt_irrefl 2)
  | value => exact absurd h (lt_irrefl 2)
  | objectField => exact absurd h (lt_irrefl 2)
  | _ => exact Nat.one_pos

theorem rankBelow_of_directive {node : Node} (h : node.kind = .directive) :
    node.rankBelow = 1 := by
  cases node with
  | directive => rfl
  | definition d => cases d <;> cases h
  | selection s => cases s <;> cases h
  | value v => cases v <;> cases h
  | type t => cases t <;> cases h
  | _ => cases h

/-- What stands in a node, or may stand there, has a rank that is high enough. -/
theorem holds_contents (node : Node) (slot : Slot) :
    (node.contents slot).Holds (node.rankBelow ≤ ·.rank) := by
  by_cases hnode : node.rankBelow = 0
  · rw [hnode]
    exact ⟨fun _ _ => Nat.zero_le _, fun _ _ _ => Nat.zero_le _⟩
  cases node with
  | argument a =>
      cases slot with
      | name => exact holds_one (le_refl 2) fun _ _ => rank_of_name
      | value => exact holds_one (le_refl 2) fun _ _ => rank_of_value
      | _ => exact holds_none
  | value v =>
      cases v with
      | var v =>
          cases slot with
          | name => exact holds_one (le_refl 2) fun _ _ => rank_of_name
          | _ => exact holds_none
      | list items span =>
          cases slot with
          | values =>
              exact holds_many items (fun x => value (.list x span)) (fun _ => le_refl 2)
                fun _ _ => rank_of_value
          | _ => exact holds_none
      | object fields span =>
          cases slot with
          | fields =>
              exact holds_many fields (fun x => value (.object x span)) (fun _ => le_refl 2)
                fun _ _ => rank_of_objectField
          | _ => exact holds_none
      | _ => exact holds_none
  | objectField f =>
      cases slot with
      | name => exact holds_one (le_refl 2) fun _ _ => rank_of_name
      | value => exact holds_one (le_refl 2) fun _ _ => rank_of_value
      | _ => exact holds_none
  | directive d =>
      cases slot with
      | name =>
          exact holds_one one_le_two fun _ _ h => one_le_two.trans (rank_of_name h)
      | arguments =>
          exact holds_many d.arguments (fun x => directive { d with arguments := x })
            (fun _ => le_refl 1) fun _ _ => rank_of_argument
      | _ => exact holds_none
  | name n => exact holds_none
  | _ => exact absurd rfl hnode

/-- An enum value holds nothing. -/
theorem placedChildren_of_enum {node : Node} (h : node.kind = .enumValue) :
    node.placedChildren = [] := by
  rw [placedChildren, h]
  rfl

end Node

namespace TypeContext

variable {schema : Schema} {c : TypeContext} {node child : Node}

/-- What is not kept in lists is unset when a node is entered that could set it. -/
structure Ready (c : TypeContext) (node : Node) : Prop where
  enumValue : c.enumValue? = none
  argument : node.rank < 2 → c.argument? = none
  directive : node.rank < 1 → c.directive? = none

theorem Ready.start (node : Node) : Ready {} node := ⟨rfl, fun _ => rfl, fun _ => rfl⟩

theorem enumValue?_enter (hnode : node.kind ≠ .enumValue) :
    (c.enter schema node).enumValue? = c.enumValue? := by
  cases node with
  | definition d => cases d <;> rfl
  | selection s => cases s <;> rfl
  | value v =>
      cases v with
      | enum name span => exact absurd rfl hnode
      | _ => rfl
  | _ => rfl

theorem argument?_enter (hnode : node.rankBelow < 2) :
    (c.enter schema node).argument? = c.argument? := by
  cases node with
  | definition d => cases d <;> rfl
  | selection s => cases s <;> rfl
  | value v => cases v <;> rfl
  | argument a => exact absurd hnode (lt_irrefl 2)
  | _ => rfl

/-- Below a node, what is not kept in lists is unset for those that could set it. -/
theorem Ready.below (h : c.Ready node) (hnode : node.kind ≠ .enumValue)
    (hrank : node.rankBelow ≤ child.rank) : (c.enter schema node).Ready child where
  enumValue := (enumValue?_enter hnode).trans h.enumValue
  argument hchild := by
    have hbelow : node.rankBelow < 2 := hrank.trans_lt hchild
    rw [argument?_enter hbelow]
    exact h.argument (node.rank_lt_of_rankBelow_lt hbelow |>.trans one_lt_two)
  directive hchild := by
    have hbelow : node.rankBelow < 1 := hrank.trans_lt hchild
    refine directive?_enter (fun hkind => ?_) (h.directive ?_)
    · rw [Node.rankBelow_of_directive hkind] at hbelow
      exact lt_irrefl 1 hbelow
    · exact node.rank_lt_of_rankBelow_lt (hbelow.trans one_lt_two)

theorem ext_of_sameLists {c' : TypeContext} (h : SameLists c c')
    (hdirective : c'.directive? = c.directive?) (hargument : c'.argument? = c.argument?)
    (henum : c'.enumValue? = c.enumValue?) : c' = c := by
  obtain ⟨houtput, hparent, hinput, hfields, hdefaults⟩ := h
  cases c
  cases c'
  simp_all

/-- Leaving takes back what entering has added. -/
theorem leave_enter (h : c.Ready node) (schema : Schema) : (c.enter schema node).leave node = c := by
  have hlists : SameLists c ((c.enter schema node).leave node) := (SameLists.refl _).leave
  obtain ⟨henum, hargument, hdirective⟩ := h
  refine ext_of_sameLists hlists ?_ ?_ ?_
  all_goals
    cases node with
    | definition d => cases d <;> rfl
    | selection s => cases s <;> rfl
    | value v =>
        cases v with
        | enum name span => first | rfl | exact henum.symm
        | _ => rfl
    | argument a => first | rfl | exact (hargument one_lt_two).symm
    | directive d => first | rfl | exact (hdirective Nat.one_pos).symm
    | _ => rfl

/-- What is taken back when a node of a kind is left. -/
def leaveKind (c : TypeContext) : NodeKind → TypeContext
  | .operationDefinition | .fragmentDefinition | .inlineFragment => c.popOutput
  | .selectionSet => { c with parentTypes := c.parentTypes.tail }
  | .field => { c.popOutput with fields := c.fields.tail }
  | .directive => { c with directive? := none }
  | .variableDefinition => c.popInput
  | .argument => { c.popInputDef with argument? := none }
  | .listValue | .objectField => c.popInputDef
  | .enumValue => { c with enumValue? := none }
  | _ => c

theorem leave_eq_leaveKind (c : TypeContext) (node : Node) :
    c.leave node = c.leaveKind node.kind := by
  cases node with
  | definition d => cases d <;> rfl
  | selection s => cases s <;> rfl
  | value v => cases v <;> rfl
  | type t => cases t <;> rfl
  | _ => rfl

end TypeContext

/-! ## Contexts along trails -/

/-- The context at a node: what the nodes above add to the empty context, the outermost
first. -/
def TypeContext.along (schema : Schema) (above : List Node) : TypeContext :=
  above.foldr (fun node c => c.enter schema node) {}

namespace Traversal

variable {trail : Trail} {node : Node}

theorem mem_of_mem_steps {above child : Node} {step : Step} (h : (step, child) ∈ steps above) :
    step.above = above ∧ (step.slot, step.index, child) ∈ above.placedChildren ∧
      child ∈ above.children step.slot := by
  rw [steps] at h
  obtain ⟨⟨⟨slot, index, child'⟩, number⟩, hmem, heq⟩ := List.mem_map.mp h
  cases heq
  have hplaced := List.fst_mem_of_mem_zipIdx hmem
  refine ⟨rfl, hplaced, ?_⟩
  obtain ⟨slot', -, hmem⟩ := List.mem_flatMap.mp hplaced
  obtain ⟨⟨child, index⟩, hmem, heq⟩ := List.mem_map.mp hmem
  cases heq
  exact List.fst_mem_of_mem_zipIdx hmem

theorem above_cons_of_mem_steps {child : Node} {step : Step} (h : (step, child) ∈ steps node) :
    Trail.above (step :: trail) = node :: trail.above :=
  congrArg (· :: trail.above) (mem_of_mem_steps h).1

/-- A node that a trail leads to is entered in a context that is ready for it, and so was
the node right above. -/
theorem Trail.LeadsTo.ready (schema : Schema) (h : trail.LeadsTo node) :
    (TypeContext.along schema trail.above).Ready node ∧
      ∀ step rest, trail = step :: rest →
        (TypeContext.along schema (Trail.above rest)).Ready step.above ∧
          step.above.kind ≠ .enumValue := by
  induction h with
  | root node =>
      refine ⟨.start node, ?_⟩
      rintro step rest ⟨⟩
  | @child trail above child step h hmem ih =>
      obtain ⟨rfl, hplaced, hchild⟩ := mem_of_mem_steps hmem
      have hkind : step.above.kind ≠ .enumValue := by
        intro hkind
        rw [Node.placedChildren_of_enum hkind] at hplaced
        cases hplaced
      have hrank := (step.above.holds_contents step.slot).nodes child hchild
      refine ⟨ih.1.below hkind hrank, ?_⟩
      rintro step rest ⟨⟩
      exact ⟨ih.1, hkind⟩
  | @replaced trail node replacement h hfits ih =>
      refine ⟨?_, ih.2⟩
      cases trail with
      | nil => exact .start replacement
      | cons step rest =>
          obtain ⟨habove, hkind⟩ := ih.2 step rest rfl
          refine habove.below hkind ?_
          refine (step.above.holds_contents step.slot).replace step.index replacement ?_
          rw [Trail.misfit?] at hfits
          split at hfits
          · next hreplace => exact Option.isSome_of_eq_some hreplace
          · cases hfits

end Traversal

/-! ## Visitors that read the types -/

open Traversal (Guide Trail Simulates walkAt)

variable {σ : Type} {schema : Schema} {hooks : TypeContext → Visitor σ}

/-- The visitor that is told the types at each node; it cannot change them. -/
def Visitor.reading (hooks : TypeContext → Visitor σ) : Visitor (TypeContext × σ) where
  enter node := fun (c, s) =>
    let (action, s) := (hooks c).enter node s
    (action, (c, s))
  leave node := fun (c, s) =>
    let (action, s) := (hooks c).leave node s
    (action, (c, s))

/-- The guide that tells a visitor the types along the trail. -/
def Traversal.Guide.typed (schema : Schema) (hooks : TypeContext → Visitor σ) : Guide σ where
  enter trail node := (hooks (.along schema (node :: trail.above))).enter node
  leave trail entered node := (hooks (.along schema (entered :: trail.above))).leave node

/-- The context when a node has been entered in it, and the visitor has answered. -/
def TypeContext.entered (schema : Schema) (node : Node) (c : TypeContext) :
    VisitAction → TypeContext
  | .skip => (c.enter schema node).leave node
  | .replace replacement => ((c.enter schema node).leave node).enter schema replacement
  | .proceed | .stop => c.enter schema node

namespace Visitor

theorem typed_reading_enter {c : TypeContext} {node : Node} {s s' : σ} {action : VisitAction}
    (h : (hooks (c.enter schema node)).enter node s = (action, s')) :
    (typed schema (reading hooks)).enter node (c, s) =
      (action, c.entered schema node action, s') := by
  simp only [typed, reading, bind, StateT.bind, modify, modifyGet, MonadStateOf.modifyGet,
    StateT.modifyGet, HasTypeContext.mapTypeContext, pure, h]
  cases action <;> rfl

theorem typed_reading_leave {c : TypeContext} {node : Node} {s s' : σ} {action : VisitAction}
    (h : (hooks c).leave node s = (action, s')) :
    (typed schema (reading hooks)).leave node (c, s) = (action, c.leave node, s') := by
  simp only [typed, reading, bind, StateT.bind, modify, modifyGet, MonadStateOf.modifyGet,
    StateT.modifyGet, HasTypeContext.mapTypeContext, pure, h]
  rfl

/-- The visitor whose context is kept up to date does what the guide does. -/
theorem simulates_typed (schema : Schema) (hooks : TypeContext → Visitor σ) :
    Simulates (typed schema (reading hooks)) (.typed schema hooks)
      fun above s => (.along schema above, s) where
  enter {trail node action s s'} hnode henter := by
    have hready := (hnode.ready schema).1
    have hvisit := typed_reading_enter (c := .along schema trail.above) henter
    have hback := TypeContext.leave_enter hready schema
    cases action with
    | proceed => exact ⟨node :: trail.above, hvisit, rfl⟩
    | stop => exact ⟨node :: trail.above, hvisit, trivial⟩
    | skip =>
        rw [TypeContext.entered, hback] at hvisit
        exact ⟨trail.above, hvisit, rfl⟩
    | replace replacement =>
        rw [TypeContext.entered, hback] at hvisit
        exact ⟨replacement :: trail.above, hvisit, fun _ => rfl⟩
  leave {trail entered node action s s'} hentered hkind hleave := by
    have hready := (hentered.ready schema).1
    rw [typed_reading_leave hleave, TypeContext.leave_eq_leaveKind, hkind,
      ← TypeContext.leave_eq_leaveKind]
    exact congrArg (fun c => (action, c, s')) (TypeContext.leave_enter hready schema)

/-- As long as its replacements fit, a visitor is told the types along the trail at every
node, and what it comes to depends on nothing else.  When the walk is not broken off, no types
are left in the end. -/
theorem visit_typed_eq_along (schema : Schema) (hooks : TypeContext → Visitor σ) (root : Node)
    (s s' : σ) (progress : Traversal.Progress)
    (h : (walkAt (.typed schema hooks) (root.height + Traversal.growth) [] root).run s =
      (.ok progress, s')) :
    ∃ c, visit (typed schema (reading hooks)) root ({}, s) = (.ok progress.edited, c, s') ∧
      (progress.stopped = false → c = {}) := by
  obtain ⟨path, hrun, hpath⟩ := (simulates_typed schema hooks).walk_eq h
  refine ⟨.along schema path, ?_, fun hstopped => ?_⟩
  · have hwalk : (Traversal.walk (typed schema (reading hooks)) (root.height + Traversal.growth)
        root).run ({}, s) = (.ok progress, .along schema path, s') := hrun
    rw [visit, hwalk]
    rfl
  · rw [hpath hstopped]
    rfl

end Visitor

/-! ### A visitor that replaces nodes by nodes of other kinds -/

/-- A type with a field `a` and a field `b` that has an argument. -/
def ringType : TypeDef where
  name := "Ring"
  origin := .host 0
  body := .object { fields := [
    ("a", { name := "a", type := .named "Ring" true }),
    ("b", { name := "b", type := .named "Ring" true,
            arguments := [("x", { name := "x", type := .list (.named "Int" true) true })] })] }

def ringSchema : Schema where
  directives := []
  queryType := ringType
  mutationType := none
  subscriptionType := none
  types := [("Ring", ringType)]
  possible := []

/-- A query of `a` and of `b` with an argument, as they are given. -/
def ringDocument (a : Selection) (x : Value) : Document where
  definitions := [.operation {
    operation := .query
    name := none
    variableDefinitions := []
    directives := []
    selectionSet := ⟨[a, .field {
      responseName := none
      name := ⟨"b", none⟩
      arguments := [{ name := ⟨"x", none⟩, value := x }]
      directives := []
      selectionSet := none }], none⟩ }]

def ringField : Selection :=
  .field {
    responseName := none, name := ⟨"a", none⟩, arguments := [], directives := []
    selectionSet := none }

def ringInline : Selection :=
  .inline { typeCondition := none, directives := [], selectionSet := ⟨[], none⟩ }

/-- Puts an inline fragment in the place of the field `a`, skips what it selects, and puts a
variable in the place of a list.  On leaving nodes other than names, it notes of which type
fields are selected, and whether the argument is known. -/
def swapping (c : TypeContext) : Visitor (List (NodeKind × Option String × Bool)) where
  enter node := pure <|
    match node with
    | .selection (.field f) =>
      if f.name.text = "a" then .replace (.selection ringInline) else .proceed
    | .selectionSet s => if s.selections.isEmpty then .skip else .proceed
    | .value (.list _ _) => .replace (.value (.var ⟨⟨"v", none⟩, none⟩))
    | _ => .proceed
  leave node := do
    unless node.kind = .name do
      modify (· ++ [(node.kind, c.parentType?.map (·.name), c.argument?.isSome)])
    return .proceed

/-- Neither the field that is gone nor the list leaves a trace in what is noted later. -/
theorem visit_typed_eq_along_of_swapping :
    let root := Node.document (ringDocument ringField (.list [] none))
    let swapped := Node.document (ringDocument ringInline (.var ⟨⟨"v", none⟩, none⟩))
    let notes := [(.inlineFragment, some "Ring", false), (.variableUse, some "Ring", true),
      (.argument, some "Ring", true), (.field, some "Ring", false),
      (.selectionSet, some "Ring", false), (.operationDefinition, none, false),
      (.document, none, false)]
    (walkAt (.typed ringSchema swapping) (root.height + Traversal.growth) [] root).run [] =
        (.ok ⟨some swapped, false⟩, notes) ∧
      ∃ c, visit (Visitor.typed ringSchema (.reading swapping)) root ({}, []) =
          (.ok (some swapped), c, notes) ∧ (false = false → c = {}) := by
  intro root swapped notes
  have hrun : (walkAt (.typed ringSchema swapping) (root.height + Traversal.growth) [] root).run
      [] = (.ok ⟨some swapped, false⟩, notes) := by rfl
  exact ⟨hrun, Visitor.visit_typed_eq_along ringSchema swapping root [] notes _ hrun⟩

end GraphQL
