import Mathlib
import GraphQL.Proofs.Validation.Surroundings

/-!
# Rules that look at a node where it stands

Three rules keep in mind what they met on the way to a node: the names of input fields, the names
of arguments, and the places of directives.  What they find at a node is told by the node and by
what is around it in the document, and by nothing else that was visited before
(`Document.repeated_names_and_directives_are_local`).

The obstacle is what the rules forget.  The names of arguments are kept for one field or directive
at a time, so those of a field are gone once a directive on it has been entered; by then all
arguments of the field have been visited.  The place of an input value depends on the place that is
innermost by then, which is that of the node around only if that node has one; definitions of
directives have none, but stand in nothing that has one.
-/

namespace GraphQL

variable {schema : Schema} {document : Document}

/-! ## Names that are given again -/

/-- The error of a name that is given again, after others. -/
def Name.againErrors (part : NamedPart) (earlier : List Name) (name : Name) :
    List ValidationError :=
  match earlier.find? (·.text = name.text) with
  | some first => [⟨.duplicateName part name.text, [first.span, name.span]⟩]
  | none => []

namespace Node

/-- The name that a node gives an argument. -/
def argumentName? : Node → Option Name
  | .argument a => some a.name
  | _ => none

theorem argumentName?_of_rank {node : Node} (h : 2 ≤ node.rank) : node.argumentName? = none := by
  cases node with
  | argument a => exact absurd h (Nat.not_succ_le_self 1)
  | _ => rfl

/-- The name that a node gives a field of an input object. -/
def inputFieldName? : Node → Option Name
  | .objectField f => some f.name
  | _ => none

end Node

namespace Occurrence

/-- The error of a node that gives a name which one before it in the same node has given. -/
def repeatedName (part : NamedPart) (name? : Node → Option Name) (o : Occurrence) :
    List ValidationError :=
  match name? o.node with
  | some name => name.againErrors part (o.before.filterMap name?)
  | none => []

theorem repeatedName_of_some {part : NamedPart} {name? : Node → Option Name} {o : Occurrence}
    {name : Name} (h : name? o.node = some name) :
    o.repeatedName part name? = name.againErrors part (o.before.filterMap name?) := by
  rw [repeatedName, h]

theorem repeatedName_of_none {part : NamedPart} {name? : Node → Option Name} {o : Occurrence}
    (h : name? o.node = none) : o.repeatedName part name? = [] := by
  rw [repeatedName, h]

/-- The error of an argument that repeats the name of an earlier one of the same field or
directive. -/
def repeatedArgument (o : Occurrence) : List ValidationError :=
  o.repeatedName .argument Node.argumentName?

/-- The error of a field in an object that repeats the name of an earlier one of the same
object. -/
def repeatedInputField (o : Occurrence) : List ValidationError :=
  o.repeatedName .inputField Node.inputFieldName?

end Occurrence

namespace NamesMet

variable {met : NamesMet} {names : List Name} {memory : RuleMemory}

/-- The names that were met are some names, with the place of the first of each. -/
def Are (met : NamesMet) (names : List Name) : Prop :=
  ∀ text, Assoc.get? met text = (names.find? (·.text = text)).map (·.span)

theorem are_nil : Are [] [] := fun _ => rfl

theorem exists_meetName (h : Are (memory.names.headD []) names) (part : NamedPart) (name : Name) :
    ∃ met', RuleMemory.meetName part name.text name.span name.span memory =
        (name.againErrors part names, { memory with names := met' :: memory.names.tail }) ∧
      Are met' (names ++ [name]) := by
  cases hfirst : names.find? (·.text = name.text) with
  | none =>
      have hget : Assoc.get? (memory.names.headD []) name.text = none := by rw [h, hfirst]; rfl
      refine ⟨(name.text, name.span) :: memory.names.headD [], ?_, fun text => ?_⟩
      · rw [Name.againErrors, hfirst]
        simp only [RuleMemory.meetName, bind, StateT.bind, get, getThe, MonadStateOf.get,
          StateT.get, pure, hget, set, StateT.set, StateT.pure]
      · rw [Assoc.get?_cons, h, List.find?_append, Option.map_or]
        by_cases htext : name.text = text
        · subst htext
          simp [hfirst]
        · simp [htext]
  | some first =>
      have hget : Assoc.get? (memory.names.headD []) name.text = some first.span := by
        rw [h, hfirst]; rfl
      cases hnames : memory.names with
      | nil => rw [hnames] at hget; cases hget
      | cons met outer =>
          refine ⟨met, ?_, fun text => ?_⟩
          · rw [Name.againErrors, hfirst, List.tail_cons, ← hnames]
            simp only [RuleMemory.meetName, bind, StateT.bind, get, getThe, MonadStateOf.get,
              StateT.get, pure, hget, StateT.pure]
          · rw [hnames, List.headD_cons] at h
            rw [h, List.find?_append]
            by_cases htext : name.text = text
            · subst htext
              simp [hfirst]
            · simp [htext]

end NamesMet

/-! ## Fields of input objects -/

namespace Rule

open Occurrence (Stands entered)

variable {o : Occurrence} {memory : RuleMemory}

/-- The names of the fields that have been entered by a moment, for each object around. -/
def inputFieldsMet (moment : List (Node × List Node)) : List (List Name) :=
  (moment.filter fun entry => entry.1.kind = .objectValue).map fun entry =>
    entry.2.filterMap Node.inputFieldName?

theorem inputFieldsMet_cons_of_object {node : Node} (h : node.kind = .objectValue)
    (parts : List Node) (moment : List (Node × List Node)) :
    inputFieldsMet ((node, parts) :: moment) =
      parts.filterMap Node.inputFieldName? :: inputFieldsMet moment := by
  simp [inputFieldsMet, h]

theorem inputFieldsMet_cons_of_ne {node : Node} (h : node.kind ≠ .objectValue)
    (parts : List Node) (moment : List (Node × List Node)) :
    inputFieldsMet ((node, parts) :: moment) = inputFieldsMet moment := by
  simp [inputFieldsMet, h]

theorem inputFieldsMet_behind (h : Node.inputFieldName? o.node = none) :
    inputFieldsMet o.behind = inputFieldsMet o.ahead := by
  obtain ⟨around, before, node⟩ := o
  cases around with
  | nil => rfl
  | cons first around =>
      by_cases hkind : first.2.kind = .objectValue <;>
        simp_all [inputFieldsMet, Occurrence.behind, Occurrence.ahead, entered]

theorem enter_objectField (scope : Scope) (f : ObjectField) (memory : RuleMemory) :
    uniqueInputFieldNames.enter scope (.objectField f) memory =
      let met := RuleMemory.meetName .inputField f.name.text f.name.span f.name.span memory
      (.andProceed met.1, met.2) := rfl

theorem tracks_uniqueInputFieldNames :
    uniqueInputFieldNames.Tracks schema document Occurrence.repeatedInputField
      fun moment memory => List.Forall₂ NamesMet.Are memory.names (inputFieldsMet moment) where
  enter {o memory} types hstands hknows := by
    rw [Occurrence.entered_inside]
    cases hnode : o.node using Node.byKind with
    | object fields span =>
        have hname : Node.inputFieldName? o.node = none := by rw [hnode]; rfl
        have hcheck : o.repeatedInputField = [] := Occurrence.repeatedName_of_none hname
        refine ⟨_, _, rfl, .inl ⟨hcheck ▸ rfl, ?_⟩⟩
        rw [inputFieldsMet_cons_of_object rfl, inputFieldsMet_behind hname]
        exact .cons NamesMet.are_nil hknows
    | objectField f =>
        have hname : Node.inputFieldName? o.node = some f.name := by rw [hnode]; rfl
        have hcheck : o.repeatedInputField = f.name.againErrors .inputField _ :=
          Occurrence.repeatedName_of_some hname
        obtain ⟨outer, -, hpart⟩ := hstands.exists_around (by rw [hnode]; exact Node.noConfusion)
        have hobject : outer.node.kind = .objectValue :=
          Node.kind_around_of_objectField (Occurrence.node_mem_parts hpart) (by rw [hnode]; rfl)
        rw [Occurrence.ahead_of_mem_parts hpart, inputFieldsMet_cons_of_object hobject] at hknows
        rw [inputFieldsMet_cons_of_ne NodeKind.noConfusion, Occurrence.behind_of_mem_parts hpart,
          inputFieldsMet_cons_of_object hobject]
        obtain ⟨met, outerMet, hmet, houter, hnames⟩ := List.forall₂_cons_right_iff.mp hknows
        have hinnermost : memory.names.headD [] = met := by rw [hnames, List.headD_cons]
        rw [← hinnermost] at hmet
        obtain ⟨met', hmeet, hmet'⟩ := NamesMet.exists_meetName hmet .inputField f.name
        refine ⟨.andProceed o.repeatedInputField, { memory with names := met' :: outerMet }, ?_,
          .inl ⟨rfl, ?_⟩⟩
        · rw [enter_objectField, hmeet, hcheck, hnames, List.tail_cons]
        · rw [List.filterMap_append, List.filterMap_cons_some hname]
          exact .cons hmet' houter
    | _ =>
        have hname : Node.inputFieldName? o.node = none := by rw [hnode]; rfl
        have hcheck : o.repeatedInputField = [] := Occurrence.repeatedName_of_none hname
        refine ⟨_, _, rfl, .inl ⟨hcheck ▸ rfl, ?_⟩⟩
        rw [inputFieldsMet_cons_of_ne NodeKind.noConfusion, inputFieldsMet_behind hname]
        exact hknows
  leave {o memory} types hstands hknows := by
    rw [Occurrence.entered_inside] at hknows
    cases hnode : o.node using Node.byKind with
    | object fields span =>
        rw [hnode, inputFieldsMet_cons_of_object rfl] at hknows
        obtain ⟨met, outer, -, houter, hnames⟩ := List.forall₂_cons_right_iff.mp hknows
        refine ⟨{ memory with names := memory.names.tail }, rfl, ?_⟩
        simp only [hnames]
        exact houter
    | _ =>
        rw [hnode, inputFieldsMet_cons_of_ne NodeKind.noConfusion] at hknows
        exact ⟨memory, rfl, hknows⟩

/-! ## Arguments -/

/-- The names of the arguments that have been entered are in mind, wherever there may be more of
them to come. -/
def ArgumentsMet (moment : List (Node × List Node)) (memory : RuleMemory) : Prop :=
  ∀ entry ∈ moment, ∀ rest, entry.1.parts = entry.2 ++ rest →
    (∃ part ∈ rest, part.kind = .argument) →
      NamesMet.Are (memory.names.headD []) (entry.2.filterMap Node.argumentName?)

theorem argumentsMet_behind_of_rank (h : o.Stands (.document document)) (hrank : o.node.rank = 0)
    (memory : RuleMemory) : ArgumentsMet o.behind memory := by
  rintro entry hentry rest hrest ⟨part, hpart, hkind⟩
  exact absurd hkind (h.no_argument_ahead hrank entry hentry rest hrest part hpart)

theorem ArgumentsMet.behind (h : ArgumentsMet o.ahead memory)
    (hnode : Node.argumentName? o.node = none) : ArgumentsMet o.behind memory := by
  obtain ⟨around, before, node⟩ := o
  cases around with
  | nil => exact h
  | cons first around =>
      obtain ⟨hfirst, haround⟩ := List.forall_mem_cons.mp h
      refine List.forall_mem_cons.mpr ⟨?_, haround⟩
      rintro rest hrest ⟨part, hpart, hkind⟩
      have hmet := hfirst (node :: rest) (by rw [hrest, List.append_assoc]; rfl)
        ⟨part, List.mem_cons_of_mem node hpart, hkind⟩
      simpa [hnode] using hmet

theorem enter_argument (scope : Scope) (a : Argument) (memory : RuleMemory) :
    uniqueArgumentNames.enter scope (.argument a) memory =
      let met := RuleMemory.meetName .argument a.name.text a.name.span a.name.span memory
      (.andSkip met.1, met.2) := rfl

theorem tracks_uniqueArgumentNames :
    uniqueArgumentNames.Tracks schema document Occurrence.repeatedArgument ArgumentsMet where
  enter {o memory} types hstands hknows := by
    rw [Occurrence.entered_inside]
    cases hnode : o.node using Node.byKind with
    | field f | directive d =>
        have hcheck : o.repeatedArgument = [] :=
          Occurrence.repeatedName_of_none (by rw [hnode]; rfl)
        -- The names of other nodes are gone, but no node around has arguments still to come.
        refine ⟨_, _, rfl, .inl ⟨hcheck ▸ rfl, List.forall_mem_cons.mpr ⟨fun _ _ _ => ?_, ?_⟩⟩⟩
        · exact NamesMet.are_nil
        · exact argumentsMet_behind_of_rank hstands (by rw [hnode]; rfl) _
    | argument a =>
        have hname : Node.argumentName? o.node = some a.name := by rw [hnode]; rfl
        have hcheck : o.repeatedArgument = a.name.againErrors .argument _ :=
          Occurrence.repeatedName_of_some hname
        obtain ⟨outer, houter, hpart⟩ :=
          hstands.exists_around (by rw [hnode]; exact Node.noConfusion)
        have hrank : outer.node.rank = 0 := by
          have hbelow := Node.rankBelow_le_of_mem_parts (Occurrence.node_mem_parts hpart)
          rw [hnode] at hbelow
          exact Nat.lt_one_iff.mp (outer.node.rank_lt_of_rankBelow_lt (hbelow.trans_lt one_lt_two))
        obtain ⟨-, rest, hparts⟩ := Occurrence.mem_parts_iff.mp hpart
        rw [Occurrence.ahead_of_mem_parts hpart] at hknows
        obtain ⟨met', hmeet, hmet'⟩ := NamesMet.exists_meetName
          (hknows (outer.node, o.before) List.mem_cons_self (o.node :: rest) hparts
            ⟨o.node, List.mem_cons_self, by rw [hnode]; rfl⟩) .argument a.name
        refine ⟨.andSkip o.repeatedArgument, { memory with names := met' :: memory.names.tail }, ?_,
          .inr ⟨rfl, ?_, ?_⟩⟩
        · rw [enter_argument, hmeet, hcheck]
        · rw [Occurrence.behind_of_mem_parts hpart]
          refine List.forall_mem_cons.mpr ⟨fun _ _ _ => ?_, ?_⟩
          · rwa [List.filterMap_append, List.filterMap_cons_some hname]
          · exact argumentsMet_behind_of_rank houter hrank _
        -- The rule skips the value of an argument, and no argument is in it.
        · intro part hpart below hbelow
          have hle := Occurrence.rankBelow_le_of_mem_all hpart hbelow
          rw [hnode] at hle
          exact Occurrence.repeatedName_of_none (Node.argumentName?_of_rank hle)
    | _ =>
        have hname : Node.argumentName? o.node = none := by rw [hnode]; rfl
        have hcheck : o.repeatedArgument = [] := Occurrence.repeatedName_of_none hname
        refine ⟨_, _, rfl, .inl ⟨hcheck ▸ rfl, List.forall_mem_cons.mpr ⟨?_, hknows.behind hname⟩⟩⟩
        rintro rest hrest ⟨part, hpart, hkind⟩
        rcases Node.kind_around_of_argument (hrest ▸ List.mem_append_right _ hpart) hkind with h | h
        all_goals cases h
  leave {o memory} types hstands hknows := ⟨memory, rfl, (List.forall_mem_cons.mp hknows).2⟩

end Rule

/-! ## Directives -/

namespace Node

/-- The place of the directives on a node that stands in another, or in none. -/
def directiveLocation? (outer? : Option Node) : Node → Option DirectiveLocation
  | .inputValueDefinition _ =>
    match outer? with
    | some (.definition (.inputObjectType _)) => some .inputFieldDefinition
    | _ => some .argumentDefinition
  | .definition d => d.directiveLocation?
  | .selection (.field _) => some .field
  | .selection (.spread _) => some .fragmentSpread
  | .selection (.inline _) => some .inlineFragment
  | .fieldDefinition _ => some .fieldDefinition
  | .enumValueDefinition _ => some .enumValue
  | _ => none

end Node

namespace Occurrence

/-- The place of the directives on the innermost of some nodes around. -/
def locationIn? : List Node → Option DirectiveLocation
  | [] => none
  | node :: outer => node.directiveLocation? outer.head?

/-- The error of a directive that is not known, or is not allowed on the node it is written on. -/
def wrongDirective (schema : Schema) (o : Occurrence) : List ValidationError :=
  match o.node with
  | .directive d => Rule.directiveErrors schema (locationIn? (o.around.map (·.2))) d
  | _ => []

end Occurrence

namespace Rule

open Occurrence (Stands entered locationIn?)

variable {o : Occurrence} {memory : RuleMemory}

/-- The places of directives on the nodes around, of those that have to do with directives. -/
def placesOf : List Node → List (Option DirectiveLocation)
  | [] => []
  | node :: around =>
    if (directivePlace? none node).isSome then
      locationIn? (node :: around) :: placesOf around
    else placesOf around

theorem placesOf_cons_of_some {node : Node} (h : (directivePlace? none node).isSome)
    (around : List Node) :
    placesOf (node :: around) = locationIn? (node :: around) :: placesOf around := if_pos h

theorem placesOf_cons_of_none {node : Node} (h : directivePlace? none node = none)
    (around : List Node) : placesOf (node :: around) = placesOf around := by
  rw [placesOf, h]
  rfl

theorem map_fst_entered (around : List (List Node × Node)) (parts : List Node) :
    (entered around parts).map (·.1) = around.map (·.2) := by
  induction around generalizing parts with
  | nil => rfl
  | cons first around ih => exact congrArg (first.2 :: ·) (ih _)

/-- In a definition of a directive, no place is around. -/
theorem placesOf_of_directiveDefinition (hstands : o.Stands (.document document))
    (hkind : o.node.kind = .directiveDefinition) : placesOf (o.around.map (·.2)) = [] := by
  obtain ⟨outer, houter, hpart⟩ := hstands.exists_around fun h => by rw [h] at hkind; cases hkind
  have hdocument := Node.kind_around_of_directiveDefinition (Occurrence.node_mem_parts hpart) hkind
  rw [(Occurrence.mem_parts_iff.mp hpart).1, Occurrence.inside,
    houter.around_of_document hdocument]
  cases hnode : outer.node using Node.byKind with
  | document d => rfl
  | _ => rw [hnode] at hdocument; cases hdocument

/-- The place of an input value is that of an input field if the innermost place around is that of
an input object. -/
theorem directivePlace?_inputValueDefinition {d : InputValueDefinition}
    (hstands : o.Stands (.document document)) (hnode : o.node = .inputValueDefinition d) :
    directivePlace? (placesOf (o.around.map (·.2))).head?.join o.node =
      some (locationIn? (o.node :: o.around.map (·.2))) := by
  obtain ⟨outer, houter, hpart⟩ := hstands.exists_around (by rw [hnode]; exact Node.noConfusion)
  have hkind := Node.kind_around_of_inputValueDefinition (Occurrence.node_mem_parts hpart)
    (by rw [hnode]; rfl)
  rw [(Occurrence.mem_parts_iff.mp hpart).1, Occurrence.inside, hnode, List.map_cons]
  cases houterNode : outer.node using Node.byKind with
  | fieldDefinition | inputObjectType =>
      rw [placesOf_cons_of_some rfl]
      rfl
  | directiveDefinition =>
      rw [placesOf_cons_of_none rfl,
        placesOf_of_directiveDefinition houter (by rw [houterNode]; rfl)]
      rfl
  | _ => rw [houterNode] at hkind; rcases hkind with h | h | h <;> cases h

/-- With the places around in mind, the rule takes a node to have the place that it has. -/
theorem directivePlace?_of_stands (hstands : o.Stands (.document document)) :
    directivePlace? (placesOf (o.around.map (·.2))).head?.join o.node =
      if (directivePlace? none o.node).isSome then some (locationIn? (o.node :: o.around.map (·.2)))
      else none := by
  cases hnode : o.node using Node.byKind with
  | inputValueDefinition d =>
      rw [← hnode, directivePlace?_inputValueDefinition hstands hnode, hnode]
      rfl
  | _ => rfl

theorem isSome_directivePlace?_of_mem_slots {node : Node} (h : .directives ∈ node.kind.slots) :
    (directivePlace? none node).isSome := by
  cases node using Node.byKind <;> first
    | rfl
    | simp [Node.kind, Definition.kind, Value.kind, TypeExpr.kind, NodeKind.slots] at h

theorem enter_of_place {scope : Scope} {node : Node} {place : Option DirectiveLocation}
    (h : directivePlace? memory.places.head?.join node = some place) :
    knownDirectives.enter scope node memory =
      (.proceed, { memory with places := place :: memory.places }) := by
  simp only [knownDirectives, bind, StateT.bind, get, getThe, MonadStateOf.get, StateT.get, pure, h]
  rfl

theorem enter_of_no_place {scope : Scope} {node : Node}
    (h : directivePlace? none node = none) (hkind : node.kind ≠ .directive) :
    knownDirectives.enter scope node memory = (.proceed, memory) := by
  cases node using Node.byKind with
  | directive => exact absurd rfl hkind
  | _ => first | rfl | cases h

theorem enter_directive (scope : Scope) (d : Directive) (memory : RuleMemory) :
    knownDirectives.enter scope (.directive d) memory =
      (.andSkip (directiveErrors scope.schema memory.places.head?.join d), memory) := rfl

theorem leave_knownDirectives (scope : Scope) (node : Node) (memory : RuleMemory) :
    knownDirectives.leave scope node memory =
      (.proceed, if (directivePlace? none node).isSome
        then { memory with places := memory.places.tail } else memory) := by
  simp only [knownDirectives]
  split <;> rfl

theorem wrongDirective_of_kind (h : o.node.kind ≠ .directive) :
    o.wrongDirective schema = [] := by
  rw [Occurrence.wrongDirective]
  split
  · next d hnode => exact absurd (by rw [hnode]; rfl) h
  · rfl

theorem exists_eq_directive {node : Node} (h : node.kind = .directive) :
    ∃ d, node = .directive d := by
  cases node using Node.byKind with
  | directive d => exact ⟨d, rfl⟩
  | _ => cases h

theorem kind_ne_directive_of_rank {node : Node} (h : 1 ≤ node.rank) : node.kind ≠ .directive := by
  cases node using Node.byKind with
  | directive => cases h
  | _ => exact NodeKind.noConfusion

theorem tracks_knownDirectives :
    knownDirectives.Tracks schema document (Occurrence.wrongDirective schema)
      fun moment memory => memory.places = placesOf (moment.map (·.1)) where
  enter {o memory} types hstands hknows := by
    rw [Occurrence.ahead, map_fst_entered] at hknows
    rw [map_fst_entered, Occurrence.behind, map_fst_entered, Occurrence.inside, List.map_cons]
    by_cases hkind : o.node.kind = .directive
    · obtain ⟨d, hnode⟩ := exists_eq_directive hkind
      obtain ⟨outer, -, hpart⟩ := hstands.exists_around (by rw [hnode]; exact Node.noConfusion)
      have hplace := isSome_directivePlace?_of_mem_slots
        (Node.directives_mem_slots_of_directive (Occurrence.node_mem_parts hpart) hkind)
      have hinnermost : memory.places.head?.join = locationIn? (o.around.map (·.2)) := by
        rw [hknows, (Occurrence.mem_parts_iff.mp hpart).1, Occurrence.inside, List.map_cons,
          placesOf_cons_of_some hplace]
        rfl
      have hcheck : o.wrongDirective schema =
          directiveErrors schema memory.places.head?.join d := by
        rw [Occurrence.wrongDirective, hnode, hinnermost]
      refine ⟨.andSkip (o.wrongDirective schema), memory, ?_, .inr ⟨rfl, hknows, ?_⟩⟩
      · rw [hnode, enter_directive, hcheck]
      -- The rule skips the arguments of a directive, and no directive is in them.
      · intro part hpart below hbelow
        have hrank := Occurrence.rankBelow_le_of_mem_all hpart hbelow
        rw [hnode] at hrank
        exact wrongDirective_of_kind (kind_ne_directive_of_rank hrank)
    have hcheck : o.wrongDirective schema = [] := wrongDirective_of_kind hkind
    by_cases hplace : (directivePlace? none o.node).isSome
    · have hfound := directivePlace?_of_stands hstands
      rw [if_pos hplace, ← hknows] at hfound
      refine ⟨.proceed, _, enter_of_place hfound, .inl ⟨hcheck ▸ rfl, ?_⟩⟩
      rw [placesOf_cons_of_some hplace, hknows]
    · have hnone := Option.not_isSome_iff_eq_none.mp hplace
      refine ⟨.proceed, memory, enter_of_no_place hnone hkind, .inl ⟨hcheck ▸ rfl, ?_⟩⟩
      rw [placesOf_cons_of_none hnone, hknows]
  leave {o memory} types hstands hknows := by
    rw [map_fst_entered, Occurrence.inside, List.map_cons] at hknows
    rw [Occurrence.behind, map_fst_entered]
    refine ⟨_, leave_knownDirectives _ o.node memory, ?_⟩
    by_cases hplace : (directivePlace? none o.node).isSome
    · rw [if_pos hplace, hknows, placesOf_cons_of_some hplace]
      rfl
    · rw [if_neg hplace, hknows, placesOf_cons_of_none (Option.not_isSome_iff_eq_none.mp hplace)]

end Rule

/-! ## What the rules find -/

namespace Document

/-- On its own the rule finds what is listed, in that order; and it adds just that to what it
finds with others. -/
def Reports (schema : Schema) (document : Document) (rule : Rule) (listed : List ValidationError) :
    Prop :=
  document.errorsOf? schema [rule] = some listed ∧
    ∀ (rules : List Rule) (found : List ValidationError) (index : ℕ),
      document.errorsOf? schema rules = some found → rules[index]? = some rule →
        ∃ each, rules.mapM (document.alone? schema) = some each ∧ Interleaves each found ∧
          each[index]? = some listed

variable {rule : Rule} {listed : List ValidationError}

theorem getElem?_of_mapM {α β : Type} {f : α → Option β} {items : List α} {results : List β}
    {index : ℕ} {item : α} {result : β} (h : items.mapM f = some results)
    (hitem : items[index]? = some item) (hresult : f item = some result) :
    results[index]? = some result := by
  induction items generalizing results index with
  | nil => cases hitem
  | cons first rest ih =>
      rw [List.mapM_cons] at h
      obtain ⟨one, hone, h⟩ := Option.bind_eq_some_iff.mp h
      obtain ⟨others, hothers, h⟩ := Option.bind_eq_some_iff.mp h
      obtain rfl := Option.some.inj h
      cases index with
      | zero =>
          obtain rfl := Option.some.inj hitem
          exact hone.symm.trans hresult
      | succ index => exact List.getElem?_cons_succ.trans (ih hothers hitem)

theorem reports_of_errorsOf? (h : document.errorsOf? schema [rule] = some listed) :
    document.Reports schema rule listed := by
  refine ⟨h, fun rules found index hfound hrule => ?_⟩
  obtain ⟨each, heach, hinterleaves⟩ := interleaves_of_errorsOf? hfound
  rw [errorsOf?_singleton] at h
  exact ⟨each, heach, hinterleaves, getElem?_of_mapM heach hrule h⟩

/-- A rule that tracks the walk reports what there is to find at each node of the document, where
it stands. -/
theorem reports_of_tracks {check : Occurrence → List ValidationError}
    {Knows : List (Node × List Node) → RuleMemory → Prop}
    (htracks : rule.Tracks schema document check Knows)
    (hsurvey : rule.survey? schema document = some []) (hstart : Knows [] {}) :
    document.Reports schema rule (document.occurrences.flatMap check) := by
  refine reports_of_errorsOf? ?_
  obtain ⟨memory, halone, -⟩ := Rule.alone_of_tracks (c := {}) htracks .root
    (Nat.lt_add_of_pos_right (show 0 < Traversal.growth by decide)) hstart
  rw [errorsOf?_singleton, alone?, hsurvey]
  exact congrArg (some ·.errors) halone

/-- Three rules with a memory of their own report what there is to find at each node where it
stands, whatever was visited before.  These are: the fields of objects and the arguments of fields
and directives that repeat the name of an earlier one of the same object, field or directive; and
the directives that the schema does not define or does not allow on the node they are written on. -/
theorem repeated_names_and_directives_are_local (schema : Schema) (document : Document) :
    document.Reports schema Rule.uniqueInputFieldNames
        (document.occurrences.flatMap Occurrence.repeatedInputField) ∧
      document.Reports schema Rule.uniqueArgumentNames
        (document.occurrences.flatMap Occurrence.repeatedArgument) ∧
      document.Reports schema Rule.knownDirectives
        (document.occurrences.flatMap (Occurrence.wrongDirective schema)) :=
  ⟨reports_of_tracks Rule.tracks_uniqueInputFieldNames rfl .nil,
    reports_of_tracks Rule.tracks_uniqueArgumentNames rfl (fun _ h => absurd h List.not_mem_nil),
    reports_of_tracks Rule.tracks_knownDirectives rfl rfl⟩

end Document

end GraphQL
