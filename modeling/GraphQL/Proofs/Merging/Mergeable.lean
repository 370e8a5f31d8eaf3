import Mathlib
import GraphQL.Proofs.Merging.Agreement
import GraphQL.Proofs.Schema.SameShape

/-!
# Fields that can be merged

When the fields of a selection set can be merged, as it is specified: without an order in which
fields are compared, and without anything kept in mind.  All that a set selects is laid out first,
fragments included (`Selects`).  Fields of one response key are of one shape in the response
(`SameResponseShape`), and unless their parents are different object types they select the same
field with the same arguments, and what both select can be merged in turn (`CanMerge`).

Either definition says when this fails, which takes finitely many steps; `sameResponseShape_iff` and
`canMerge_iff` are the rules as they are specified.
-/

namespace GraphQL.Merging

open Selected (fieldsOf fieldsOfSelection spreadsOf spreadsOfSelection spreadsOfSet conditionType)

variable {schema : Schema} {document : Document} {parent : Option TypeDef} {place : Place}
  {set : SelectionSet} {f g : SelectedField}

/-! ## What a set selects -/

/-- A set at a place, which selects of a type, selects a field: by itself, in an inline fragment, or
in a fragment that it spreads. -/
inductive Selects (schema : Schema) (document : Document) :
    Option TypeDef → Place → SelectionSet → SelectedField → Prop where
  | field {parent : Option TypeDef} {place : Place} {set : SelectionSet} {i : ℕ} {f : Field}
    (hf : set.selections[i]? = some (.field f)) :
    Selects schema document parent place set
      ⟨parent, f, i :: place, parent.bind (·.field? f.name.text)⟩
  | inline {parent : Option TypeDef} {place : Place} {set : SelectionSet} {i : ℕ}
    {f : InlineFragment} {g : SelectedField} (hf : set.selections[i]? = some (.inline f))
    (h : Selects schema document (conditionType schema parent f.typeCondition) (i :: place)
      f.selectionSet g) :
    Selects schema document parent place set g
  | spread {parent : Option TypeDef} {place : Place} {set : SelectionSet} {i j : ℕ}
    {f : FragmentSpread} {d : FragmentDefinition} {g : SelectedField}
    (hf : set.selections[i]? = some (.spread f))
    (hd : document.definitions[j]? = some (.fragment d)) (hname : d.name.text = f.name.text)
    (h : Selects schema document (schema.type? d.typeCondition.name.text) [j] d.selectionSet g) :
    Selects schema document parent place set g

/-- The fragment of a name selects a field. -/
def FragmentSelects (schema : Schema) (document : Document) (name : String) (g : SelectedField) :
    Prop :=
  ∃ j d, document.definitions[j]? = some (.fragment d) ∧ d.name.text = name ∧
    Selects schema document (schema.type? d.typeCondition.name.text) [j] d.selectionSet g

/-- The fields that the set at a place selects. -/
def fieldsAt (schema : Schema) (document : Document) (place : Place) : Set SelectedField :=
  {f | ∃ set, setAt? (.ofDocument schema document) document place = some set ∧
    Selects schema document (typeAt (.ofDocument schema document) document place) place set f}

/-- The fields that a field selects in turn. -/
def subfields (schema : Schema) (document : Document) (f : SelectedField) : Set SelectedField :=
  {g | ∃ set, f.field.selectionSet = some set ∧
    Selects schema document (f.definition.bind fun d => schema.namedType? d.type) f.place set g}

/-- What two fields select, as one set. -/
def mergedFields (schema : Schema) (document : Document) (f g : SelectedField) :
    Set SelectedField :=
  subfields schema document f ∪ subfields schema document g

/-! ## Shapes in the response -/

/-- The same lists and the same places that are never null, around the same scalar or enum, or
around types that are none. -/
inductive SameTypeShape (schema : Schema) : TypeRef → TypeRef → Prop where
  | list {a b : TypeRef} {nullable : Bool} (h : SameTypeShape schema a b) :
    SameTypeShape schema (.list a nullable) (.list b nullable)
  | named {a b : String} {nullable : Bool}
    (h : schema.IsLeafName a ∨ schema.IsLeafName b → a = b) :
    SameTypeShape schema (.named a nullable) (.named b nullable)

theorem SameTypeShape.refl (type : TypeRef) : SameTypeShape schema type type := by
  induction type with
  | named name nullable => exact .named fun _ => rfl
  | list item nullable ih => exact .list ih

theorem SameTypeShape.symm {a b : TypeRef} (h : SameTypeShape schema a b) :
    SameTypeShape schema b a := by
  induction h with
  | list _ ih => exact .list ih
  | named h => exact .named fun hleaf => (h hleaf.symm).symm

/-- The search sees a conflict of types where their shapes differ. -/
theorem typesConflict_eq_false_iff {a b : TypeRef} :
    typesConflict schema a b = false ↔ SameTypeShape schema a b := by
  induction a generalizing b with
  | list item nullable ih =>
      cases b with
      | named =>
          constructor <;> intro h <;> cases h
      | list other nullable' =>
          rw [typesConflict, Bool.or_eq_false_iff, ih, bne_eq_false_iff_eq]
          constructor
          · rintro ⟨rfl, h⟩
            exact .list h
          · intro h
            cases h with
            | list h => exact ⟨rfl, h⟩
  | named name nullable =>
      cases b with
      | list =>
          constructor <;> intro h <;> cases h
      | named other nullable' =>
          simp only [typesConflict, Bool.or_eq_false_iff, bne_eq_false_iff_eq,
            Bool.and_eq_false_iff]
          constructor
          · rintro ⟨rfl, h⟩
            refine .named fun hleaf => h.resolve_left fun hnone => ?_
            exact hleaf.elim (fun hleaf => by simp [Schema.IsLeafName, hnone.1] at hleaf)
              fun hleaf => by simp [Schema.IsLeafName, hnone.2] at hleaf
          · intro h
            cases h with
            | named h =>
                refine ⟨rfl, or_iff_not_imp_left.mpr fun hleaf => h ?_⟩
                simpa [Schema.IsLeafName, or_iff_not_imp_left] using hleaf

/-- Two fields differ in shape: in their types, as far as those are known, or in fields of one key
that they select. -/
inductive ShapesDiffer (schema : Schema) (document : Document) :
    SelectedField → SelectedField → Prop where
  | types {f g : SelectedField} {d d' : FieldDef} (hd : f.definition = some d)
    (hd' : g.definition = some d') (h : ¬ SameTypeShape schema d.type d'.type) :
    ShapesDiffer schema document f g
  | inside {f g f' g' : SelectedField} (hf' : f' ∈ mergedFields schema document f g)
    (hg' : g' ∈ mergedFields schema document f g)
    (hkey : f'.field.responseKey = g'.field.responseKey)
    (h : ShapesDiffer schema document f' g') : ShapesDiffer schema document f g

/-- Two fields of one key have one shape in the response. -/
def SameResponseShape (schema : Schema) (document : Document) (f g : SelectedField) : Prop :=
  ¬ ShapesDiffer schema document f g

theorem sameResponseShape_iff :
    SameResponseShape schema document f g ↔
      (∀ d d', f.definition = some d → g.definition = some d' →
        SameTypeShape schema d.type d'.type) ∧
      ∀ f' ∈ mergedFields schema document f g, ∀ g' ∈ mergedFields schema document f g,
        f'.field.responseKey = g'.field.responseKey → SameResponseShape schema document f' g' := by
  constructor
  · refine fun h => ⟨fun d d' hd hd' => ?_, fun f' hf' g' hg' hkey hdiffer => ?_⟩
    · by_contra hshape
      exact h (.types hd hd' hshape)
    · exact h (.inside hf' hg' hkey hdiffer)
  · rintro ⟨htypes, hbelow⟩ (⟨hd, hd', hshape⟩ | ⟨hf', hg', hkey, hdiffer⟩)
    · exact hshape (htypes _ _ hd hd')
    · exact hbelow _ hf' _ hg' hkey hdiffer

/-! ## Fields that can be merged -/

/-- Some object may have both fields: their parents are the same, or one of them is known not to be
an object type, or is not known. -/
def OfOneObject (f g : SelectedField) : Prop :=
  ∀ t u, f.parent = some t → g.parent = some u → t.isObjectType → u.isObjectType → t.name = u.name

theorem parentsDiffer_eq_false_iff : parentsDiffer f g = false ↔ OfOneObject f g := by
  unfold parentsDiffer OfOneObject
  cases f.parent with
  | none => simp
  | some t =>
      cases g.parent with
      | none => simp
      | some u =>
          have hnames : (∀ t' u', some t = some t' → some u = some u' → t'.isObjectType →
              u'.isObjectType → t'.name = u'.name) ↔
                (t.isObjectType → u.isObjectType → t.name = u.name) := by
            refine ⟨fun h => h t u rfl rfl, ?_⟩
            rintro h _ _ ⟨⟩ ⟨⟩
            exact h
          rw [hnames]
          by_cases ht : t.isObjectType <;> by_cases hu : u.isObjectType <;> simp [ht, hu]

/-- Some fields of one key among these cannot be merged. -/
inductive CannotMerge (schema : Schema) (document : Document) : Set SelectedField → Prop where
  | shapes {fields : Set SelectedField} {f g : SelectedField} (hf : f ∈ fields) (hg : g ∈ fields)
    (hkey : f.field.responseKey = g.field.responseKey) (h : ShapesDiffer schema document f g) :
    CannotMerge schema document fields
  | names {fields : Set SelectedField} {f g : SelectedField} (hf : f ∈ fields) (hg : g ∈ fields)
    (hkey : f.field.responseKey = g.field.responseKey) (hobject : OfOneObject f g)
    (h : f.field.name.text ≠ g.field.name.text) : CannotMerge schema document fields
  | arguments {fields : Set SelectedField} {f g : SelectedField} (hf : f ∈ fields) (hg : g ∈ fields)
    (hkey : f.field.responseKey = g.field.responseKey) (hobject : OfOneObject f g)
    (h : ¬ (printedArguments f.field.arguments).Perm (printedArguments g.field.arguments)) :
    CannotMerge schema document fields
  | inside {fields : Set SelectedField} {f g : SelectedField} (hf : f ∈ fields) (hg : g ∈ fields)
    (hkey : f.field.responseKey = g.field.responseKey) (hobject : OfOneObject f g)
    (h : CannotMerge schema document (mergedFields schema document f g)) :
    CannotMerge schema document fields

/-- Fields of one key among these can be merged, and so can what they select. -/
def CanMerge (schema : Schema) (document : Document) (fields : Set SelectedField) : Prop :=
  ¬ CannotMerge schema document fields

theorem canMerge_iff {fields : Set SelectedField} :
    CanMerge schema document fields ↔
      ∀ f ∈ fields, ∀ g ∈ fields, f.field.responseKey = g.field.responseKey →
        SameResponseShape schema document f g ∧ (OfOneObject f g →
          f.field.name.text = g.field.name.text ∧
          (printedArguments f.field.arguments).Perm (printedArguments g.field.arguments) ∧
          CanMerge schema document (mergedFields schema document f g)) := by
  constructor
  · refine fun h f hf g hg hkey => ⟨fun hdiffer => h (.shapes hf hg hkey hdiffer),
      fun hobject => ⟨?_, ?_, fun hbelow => h (.inside hf hg hkey hobject hbelow)⟩⟩
    · by_contra hname
      exact h (.names hf hg hkey hobject hname)
    · by_contra harguments
      exact h (.arguments hf hg hkey hobject harguments)
  · intro h hcannot
    cases hcannot with
    | shapes hf hg hkey hdiffer => exact (h _ hf _ hg hkey).1 hdiffer
    | names hf hg hkey hobject hname => exact hname ((h _ hf _ hg hkey).2 hobject).1
    | arguments hf hg hkey hobject harguments =>
        exact harguments ((h _ hf _ hg hkey).2 hobject).2.1
    | inside hf hg hkey hobject hbelow => exact ((h _ hf _ hg hkey).2 hobject).2.2 hbelow

theorem CannotMerge.mono {fields more : Set SelectedField}
    (h : CannotMerge schema document fields) (hsubset : fields ⊆ more) :
    CannotMerge schema document more := by
  cases h with
  | shapes hf hg hkey hdiffer => exact .shapes (hsubset hf) (hsubset hg) hkey hdiffer
  | names hf hg hkey hobject hname => exact .names (hsubset hf) (hsubset hg) hkey hobject hname
  | arguments hf hg hkey hobject harguments =>
      exact .arguments (hsubset hf) (hsubset hg) hkey hobject harguments
  | inside hf hg hkey hobject hbelow => exact .inside (hsubset hf) (hsubset hg) hkey hobject hbelow

/-- Arguments with names of their own are the same, in whatever order, where the search sees no
difference. -/
theorem sameArguments_of_perm {given₁ given₂ : List Argument}
    (h : (printedArguments given₁).Perm (printedArguments given₂))
    (hnodup : (given₂.map (·.name.text)).Nodup) : sameArguments given₁ given₂ = true := by
  have hlength : given₁.length = given₂.length := by
    simpa [printedArguments] using h.length_eq
  simp only [sameArguments, hlength, decide_true, Bool.true_and, List.all_eq_true]
  intro a ha
  have hmem : (a.name.text, a.value.text) ∈ printedArguments given₂ :=
    h.subset (List.mem_map_of_mem ha)
  obtain ⟨b, hb, heq⟩ := List.mem_map.mp hmem
  obtain ⟨hname, hvalue⟩ := Prod.mk.inj heq
  obtain ⟨found, hfound⟩ : ∃ found, given₂.find? (·.name.text = a.name.text) = some found :=
    Option.isSome_iff_exists.mp (List.find?_isSome.mpr ⟨b, hb, by simpa using hname⟩)
  have hsame : found = b := by
    refine List.inj_on_of_nodup_map hnodup (List.mem_of_find?_eq_some hfound) hb ?_
    have hfoundName : found.name.text = a.name.text := by simpa using List.find?_some hfound
    exact hfoundName.trans hname.symm
  simp [hfound, hsame, hvalue]

/-! ## Fields of sets and of the fragments they spread -/

mutual

private theorem selects_of_mem_fieldsFrom {parent : Option TypeDef} {place : Place}
    {set : SelectionSet} {index : ℕ} :
    ∀ {selections : List Selection},
      (∀ i selection, selections[i]? = some selection →
        set.selections[index + i]? = some selection) →
      g ∈ fieldsOf schema parent place index selections →
      Selects schema document parent place set g
  | [], _, hg => by simp [fieldsOf] at hg
  | selection :: rest, h, hg => by
      rcases List.mem_append.mp hg with hg | hg
      · exact selects_of_mem_fieldsOfSelection (h 0 selection rfl) hg
      · refine selects_of_mem_fieldsFrom (fun i found hfound => ?_) hg
        have := h (i + 1) found hfound
        rwa [show index + (i + 1) = index + 1 + i by omega] at this

private theorem selects_of_mem_fieldsOfSelection {parent : Option TypeDef} {place : Place}
    {set : SelectionSet} {index : ℕ} :
    ∀ {selection : Selection}, set.selections[index]? = some selection →
      g ∈ fieldsOfSelection schema parent (index :: place) selection →
      Selects schema document parent place set g
  | .field f, h, hg => by
      obtain rfl := List.mem_singleton.mp hg
      exact .field h
  | .spread _, _, hg => by simp [fieldsOfSelection] at hg
  | .inline ⟨condition, directives, ⟨selections, span⟩, inlineSpan⟩, h, hg =>
      .inline h (selects_of_mem_fieldsFrom (fun i found hfound => by rwa [Nat.zero_add]) hg)

end

/-- A set selects the fields that it holds. -/
theorem selects_of_mem_fieldsOf (h : g ∈ fieldsOf schema parent place 0 set.selections) :
    Selects schema document parent place set g :=
  selects_of_mem_fieldsFrom (fun i found hfound => by rwa [Nat.zero_add]) h

mutual

private theorem selects_of_mem_spreadsFrom {parent : Option TypeDef} {place : Place}
    {set : SelectionSet} {index : ℕ} {name : String}
    (h : FragmentSelects schema document name g) :
    ∀ {selections : List Selection},
      (∀ i selection, selections[i]? = some selection →
        set.selections[index + i]? = some selection) →
      name ∈ spreadsOf selections → Selects schema document parent place set g
  | [], _, hname => by simp [spreadsOf] at hname
  | selection :: rest, hselections, hname => by
      rcases List.mem_append.mp hname with hname | hname
      · exact selects_of_mem_spreadsOfSelection h (hselections 0 selection rfl) hname
      · have htail (i : ℕ) (found : Selection) (hfound : rest[i]? = some found) :
            set.selections[index + 1 + i]? = some found := by
          have := hselections (i + 1) found hfound
          rwa [show index + (i + 1) = index + 1 + i by omega] at this
        exact selects_of_mem_spreadsFrom h htail hname

private theorem selects_of_mem_spreadsOfSelection {parent : Option TypeDef} {place : Place}
    {set : SelectionSet} {index : ℕ} {name : String}
    (h : FragmentSelects schema document name g) :
    ∀ {selection : Selection}, set.selections[index]? = some selection →
      name ∈ spreadsOfSelection selection → Selects schema document parent place set g
  | .field _, _, hname => by simp [spreadsOfSelection] at hname
  | .spread f, hf, hname => by
      obtain rfl := List.mem_singleton.mp hname
      obtain ⟨j, d, hd, hname, hg⟩ := h
      exact .spread hf hd hname hg
  | .inline ⟨condition, directives, ⟨selections, span⟩, inlineSpan⟩, hf, hname =>
      .inline hf
        (selects_of_mem_spreadsFrom h (fun i found hfound => by rwa [Nat.zero_add]) hname)

end

/-- A set selects what the fragments select that it spreads. -/
theorem selects_of_mem_spreadsOfSet {name : String} (h : FragmentSelects schema document name g)
    (hname : name ∈ spreadsOfSet set) : Selects schema document parent place set g :=
  selects_of_mem_spreadsFrom h (fun i found hfound => by rwa [Nat.zero_add])
    (List.mem_eraseDups.mp hname)

/-- A fragment selects what fragments select to which it leads. -/
theorem FragmentSelects.of_reaches {first name : String}
    (h : FragmentSelects schema document name g)
    (hpath : Relation.ReflTransGen (SpreadsTo (.ofDocument schema document)) first name) :
    FragmentSelects schema document first g := by
  induction hpath using Relation.ReflTransGen.head_induction_on with
  | refl => exact h
  | head hstep _ ih =>
      obtain ⟨place, fragment, hfragment, hspread⟩ := hstep
      obtain ⟨j, hd, rfl, hname⟩ := mem_placedFragments_iff.mp (Assoc.mem_of_get? hfragment)
      exact ⟨j, fragment, hd, hname, selects_of_mem_spreadsOfSet ih hspread⟩

/-- What a set selects is its own, or that of a fragment to which it leads. -/
theorem Selects.own_or_reached (hnodup : ((placedFragments document).map (·.1)).Nodup)
    (h : Selects schema document parent place set g) :
    g ∈ fieldsOf schema parent place 0 set.selections ∨
      ∃ first ∈ spreadsOfSet set, ∃ name other fragment,
        Relation.ReflTransGen (SpreadsTo (.ofDocument schema document)) first name ∧
        Assoc.get? (placedFragments document) name = some (other, fragment) ∧
        g ∈ fieldsOf schema (schema.type? fragment.typeCondition.name.text) other 0
          fragment.selectionSet.selections := by
  induction h with
  | field hf => exact .inl (fieldsOfSelection_subset hf (List.mem_singleton_self _))
  | @inline parent place set i f g hf _ ih =>
      obtain ⟨condition, directives, ⟨selections, span⟩, inlineSpan⟩ := f
      rcases ih with hg | ⟨first, hfirst, hreached⟩
      · exact .inl (fieldsOfSelection_subset hf hg)
      · refine .inr ⟨first, List.mem_eraseDups.mpr ?_, hreached⟩
        exact spreadsOfSelection_subset (List.mem_of_getElem? hf) (List.mem_eraseDups.mp hfirst)
  | @spread parent place set i j f d g hf hd hname _ ih =>
      have hspread : f.name.text ∈ spreadsOfSet set := List.mem_eraseDups.mpr
        (spreadsOfSelection_subset (List.mem_of_getElem? hf) (List.mem_singleton_self _))
      have hplaced : Assoc.get? (placedFragments document) f.name.text = some ([j], d) :=
        Assoc.get?_of_mem hnodup (mem_placedFragments_iff.mpr ⟨j, hd, rfl, hname⟩)
      rcases ih with hg | ⟨first, hfirst, name, other, fragment, hpath, hreached⟩
      · exact .inr ⟨f.name.text, hspread, f.name.text, [j], d, .refl, hplaced, hg⟩
      · exact .inr ⟨f.name.text, hspread, name, other, fragment,
          .head ⟨[j], d, hplaced, hfirst⟩ hpath, hreached⟩

end GraphQL.Merging
