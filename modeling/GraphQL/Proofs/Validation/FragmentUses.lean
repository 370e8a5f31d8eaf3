import Mathlib
import GraphQL.Execution.Grouping
import GraphQL.Proofs.Schema.Built
import GraphQL.Validation.Merging.Selected
import GraphQL.Validation.Rules.Fragments

/-!
# Fragments that never apply

Validation asks whether two composite types overlap, and looks at what they are made of, in four
ways.  Execution asks for one object type at a time whether a condition applies to it.  For types of
different names the questions agree (`Schema.overlap_iff_exists_applies`): the types overlap if some
object type of the schema meets the conditions on both.  They agree for different names only.  A
type always overlaps with itself, also an interface that nothing implements.

What is around a fragment is told by the text alone.  `Document.fragmentUses` lists the fragments of
a document, those that are spread and those that are written on the spot, each with the composite
type whose fields are selected there.  A fragment is wrong in its place if its type and the type
around it do not overlap, and that is what execution could never enter
(`FragmentUse.error?_eq_some_iff`).

A fragment without a condition stands for the type around it, and is never wrong.
-/

namespace GraphQL.Schema

/-! ## Types that have objects in common -/

open Grouping (applies)

variable {schema : Schema} {a b t object : TypeDef}

/-- The condition of a fragment on a type. -/
def condition (t : TypeDef) : NamedType := { name := { text := t.name } }

/-- A condition on a type applies to the type itself and to what it is made of. -/
theorem applies_iff {condition : NamedType} {objectName : String}
    (ht : schema.type? condition.name.text = some t) :
    applies schema objectName (some condition) ↔
      t.name = objectName ∨ schema.isPossibleType t objectName := by
  simp only [applies, ht, Bool.or_eq_true, decide_eq_true_eq, Bool.and_eq_true]
  constructor
  · rintro (hname | ⟨-, hpossible⟩)
    · exact Or.inl hname
    · exact Or.inr hpossible
  · rintro (hname | hpossible)
    · exact Or.inl hname
    · exact Or.inr ⟨isAbstractType_of_isPossibleType hpossible, hpossible⟩

theorem isObjectType_of_not_isAbstractType (hcomposite : t.isCompositeType)
    (h : t.isAbstractType = false) : t.isObjectType := by
  unfold TypeDef.isCompositeType at hcomposite
  unfold TypeDef.isAbstractType at h
  unfold TypeDef.isObjectType
  split at hcomposite <;> simp_all

/-- An object type of the schema that both types have among theirs. -/
def Shares (schema : Schema) (a b object : TypeDef) : Prop :=
  schema.type? object.name = some object ∧ object.isObjectType ∧
    (a.name = object.name ∨ schema.isPossibleType a object.name) ∧
    (b.name = object.name ∨ schema.isPossibleType b object.name)

theorem Shares.symm (h : schema.Shares a b object) : schema.Shares b a object :=
  ⟨h.1, h.2.1, h.2.2.2, h.2.2.1⟩

section

variable (hcoherent : schema.Coherent) (ha : schema.type? a.name = some a)
  (hb : schema.type? b.name = some b) (hne : a.name ≠ b.name)
include ha hb hne

include hcoherent in
theorem exists_shares_of_overlap (ha' : a.isCompositeType) (hb' : b.isCompositeType)
    (h : schema.overlap a b) : ∃ object, schema.Shares a b object := by
  unfold overlap at h
  rw [decide_eq_false hne, Bool.false_or] at h
  cases haAbstract : a.isAbstractType with
  | true =>
      cases hbAbstract : b.isAbstractType with
      | true =>
          simp only [haAbstract, hbAbstract] at h
          obtain ⟨object, hmem, hpossible⟩ := List.any_eq_true.mp h
          obtain ⟨hobject, hknown⟩ := hcoherent.possible ha hmem
          refine ⟨object, hknown, hobject, Or.inr ?_, Or.inr hpossible⟩
          exact List.any_eq_true.mpr ⟨object, hmem, decide_eq_true rfl⟩
      | false =>
          simp only [haAbstract, hbAbstract] at h
          exact ⟨b, hb, isObjectType_of_not_isAbstractType hb' hbAbstract, Or.inr h, Or.inl rfl⟩
  | false =>
      cases hbAbstract : b.isAbstractType with
      | true =>
          simp only [haAbstract, hbAbstract] at h
          exact ⟨a, ha, isObjectType_of_not_isAbstractType ha' haAbstract, Or.inl rfl, Or.inr h⟩
      | false => simp [haAbstract, hbAbstract] at h

theorem overlap_of_shares (h : schema.Shares a b object) : schema.overlap a b := by
  obtain ⟨hknown, hobject, hobjectA, hobjectB⟩ := h
  have hnotAbstract : object.isAbstractType = false := by
    unfold TypeDef.isObjectType at hobject
    unfold TypeDef.isAbstractType
    split at hobject <;> simp_all
  unfold overlap
  rw [decide_eq_false hne, Bool.false_or]
  rcases hobjectA with hname | hpossibleA
  · -- The first type is the object type, so the second one is not.
    obtain rfl : a = object := Option.some.inj (ha.symm.trans (hname ▸ hknown))
    rcases hobjectB with hname | hpossibleB
    · exact absurd hname.symm hne
    · simp only [hnotAbstract, isAbstractType_of_isPossibleType hpossibleB]
      exact hpossibleB
  · rcases hobjectB with hname | hpossibleB
    · obtain rfl : b = object := Option.some.inj (hb.symm.trans (hname ▸ hknown))
      simp only [hnotAbstract, isAbstractType_of_isPossibleType hpossibleA]
      exact hpossibleA
    · simp only [isAbstractType_of_isPossibleType hpossibleA,
        isAbstractType_of_isPossibleType hpossibleB]
      obtain ⟨other, hmem, hname⟩ := List.any_eq_true.mp hpossibleA
      refine List.any_eq_true.mpr ⟨other, hmem, ?_⟩
      rwa [of_decide_eq_true hname]

include hcoherent

/-- Composite types of different names overlap if an object type meets the conditions on both. -/
theorem overlap_iff_exists_applies (ha' : a.isCompositeType) (hb' : b.isCompositeType) :
    schema.overlap a b ↔ ∃ object, schema.type? object.name = some object ∧ object.isObjectType ∧
      applies schema object.name (some (condition a)) ∧
      applies schema object.name (some (condition b)) := by
  have hshares (object : TypeDef) : schema.Shares a b object ↔
      schema.type? object.name = some object ∧ object.isObjectType ∧
        applies schema object.name (some (condition a)) ∧
        applies schema object.name (some (condition b)) := by
    have hA : applies schema object.name (some (condition a)) ↔
        a.name = object.name ∨ schema.isPossibleType a object.name := applies_iff ha
    have hB : applies schema object.name (some (condition b)) ↔
        b.name = object.name ∨ schema.isPossibleType b object.name := applies_iff hb
    rw [hA, hB, Shares]
  constructor
  · intro h
    obtain ⟨object, hobject⟩ := exists_shares_of_overlap hcoherent ha hb hne ha' hb' h
    exact ⟨object, (hshares object).mp hobject⟩
  · rintro ⟨object, hobject⟩
    exact overlap_of_shares ha hb hne ((hshares object).mpr hobject)

theorem overlap_comm (ha' : a.isCompositeType) (hb' : b.isCompositeType) :
    schema.overlap a b = schema.overlap b a := by
  rw [Bool.eq_iff_iff]
  constructor
  · intro h
    obtain ⟨object, hobject⟩ := exists_shares_of_overlap hcoherent ha hb hne ha' hb' h
    exact overlap_of_shares hb ha hne.symm hobject.symm
  · intro h
    obtain ⟨object, hobject⟩ := exists_shares_of_overlap hcoherent hb ha hne.symm hb' ha' h
    exact overlap_of_shares ha hb hne hobject.symm

end

end GraphQL.Schema

namespace GraphQL

open Grouping (applies)
open Selected (conditionType)

/-! ## Uses of fragments -/

/-- A place where a fragment is used. -/
structure FragmentUse where
  /-- The composite type around the place, if it is known. -/
  parent? : Option TypeDef
  /-- The name of the fragment, unless it is written on the spot. -/
  name? : Option String
  /-- The condition of the fragment, unless it has none or is not defined. -/
  condition? : Option NamedType
  span : Option Span

/-- The type, if values of it have fields to select. -/
def compositeOf (type? : Option TypeDef) : Option TypeDef := type?.filter (·.isCompositeType)

@[simp]
theorem compositeOf_compositeOf (type? : Option TypeDef) :
    compositeOf (compositeOf type?) = compositeOf type? := by
  rw [compositeOf, compositeOf, Option.filter_filter]
  simp only [Bool.and_self]

/-- The type whose fields are selected below a field. -/
def fieldType? (schema : Schema) (parent? : Option TypeDef) (name : String) : Option TypeDef :=
  compositeOf ((parent?.bind (schema.fieldDef? · name)).bind fun d => schema.namedType? d.type)

section

variable (schema : Schema) (document : Document)

mutual

/-- The uses of fragments in a selection set and in the sets within it, where `parent?` is the type
around the set. -/
def usesIn (parent? : Option TypeDef) : SelectionSet → List FragmentUse
  | ⟨selections, _⟩ => usesAmong parent? selections

def usesAmong (parent? : Option TypeDef) : List Selection → List FragmentUse
  | [] => []
  | selection :: rest => usesAt parent? selection ++ usesAmong parent? rest

def usesAt (parent? : Option TypeDef) : Selection → List FragmentUse
  | .field ⟨_, name, _, _, some set, _⟩ => usesIn (fieldType? schema parent? name.text) set
  | .field ⟨_, _, _, _, none, _⟩ => []
  | .spread s =>
      [⟨parent?, some s.name.text, (document.fragment? s.name.text).map (·.typeCondition), s.span⟩]
  | .inline ⟨condition, _, set, span⟩ =>
      ⟨parent?, none, condition, span⟩ ::
        usesIn (compositeOf (conditionType schema parent? condition)) set

end

/-- The uses of fragments in a definition. -/
def usesInDefinition : Definition → List FragmentUse
  | .operation d =>
      let root? := (schema.rootType? d.operation).bind (schema.type? ·.name)
      usesIn schema document (compositeOf root?) d.selectionSet
  | .fragment d =>
      let type? := schema.type? d.typeCondition.name.text
      usesIn schema document (compositeOf type?) d.selectionSet
  | _ => []

/-- The uses of fragments in a document, in the order of the text. -/
def Document.fragmentUses : List FragmentUse :=
  document.definitions.flatMap (usesInDefinition schema document)

end

variable {schema : Schema} {document : Document} {parent? : Option TypeDef} {use : FragmentUse}

theorem usesAmong_eq_flatMap (selections : List Selection) :
    usesAmong schema document parent? selections =
      selections.flatMap (usesAt schema document parent?) := by
  induction selections with
  | nil => rw [usesAmong, List.flatMap_nil]
  | cons selection rest ih => rw [usesAmong, ih, List.flatMap_cons]

/-! ## Known types -/

/-- The type, if it is known, is a composite one of the schema. -/
def IsKnown (schema : Schema) (type? : Option TypeDef) : Prop :=
  ∀ t, type? = some t → schema.type? t.name = some t ∧ t.isCompositeType

section

variable (hcoherent : schema.Coherent)
include hcoherent

theorem isKnown_type? (name : String) : IsKnown schema (compositeOf (schema.type? name)) := by
  intro t h
  obtain ⟨ht, hcomposite⟩ := Option.filter_eq_some_iff.mp h
  exact ⟨by rwa [hcoherent.name_of_type? ht], hcomposite⟩

theorem isKnown_bind {α : Type} (x? : Option α) (name : α → String) :
    IsKnown schema (compositeOf (x?.bind fun x => schema.type? (name x))) := by
  cases x? with
  | none => exact fun t h => nomatch h
  | some x => exact isKnown_type? hcoherent (name x)

theorem isKnown_conditionType (h : IsKnown schema parent?) (condition : Option NamedType) :
    IsKnown schema (compositeOf (conditionType schema parent? condition)) := by
  cases condition with
  | some condition => exact isKnown_type? hcoherent condition.name.text
  | none => exact fun t ht => h t (Option.filter_eq_some_iff.mp ht).1

end

mutual

/-- The types around fragments are known and composite. -/
theorem isKnown_of_mem_usesIn (hcoherent : schema.Coherent) :
    ∀ (parent? : Option TypeDef) (set : SelectionSet), IsKnown schema parent? →
      use ∈ usesIn schema document parent? set → IsKnown schema use.parent?
  | parent?, ⟨selections, _⟩, h, hmem =>
      isKnown_of_mem_usesAmong hcoherent parent? selections h hmem

theorem isKnown_of_mem_usesAmong (hcoherent : schema.Coherent) :
    ∀ (parent? : Option TypeDef) (selections : List Selection), IsKnown schema parent? →
      use ∈ usesAmong schema document parent? selections → IsKnown schema use.parent?
  | _, [], _, hmem => by simp [usesAmong] at hmem
  | parent?, selection :: rest, h, hmem => by
      rw [usesAmong] at hmem
      rcases List.mem_append.mp hmem with hmem | hmem
      · exact isKnown_of_mem_usesAt hcoherent parent? selection h hmem
      · exact isKnown_of_mem_usesAmong hcoherent parent? rest h hmem

theorem isKnown_of_mem_usesAt (hcoherent : schema.Coherent) :
    ∀ (parent? : Option TypeDef) (selection : Selection), IsKnown schema parent? →
      use ∈ usesAt schema document parent? selection → IsKnown schema use.parent?
  | parent?, .field ⟨_, name, _, _, some set, _⟩, _, hmem => by
      rw [usesAt] at hmem
      exact isKnown_of_mem_usesIn hcoherent _ set (isKnown_bind hcoherent _ _) hmem
  | _, .field ⟨_, _, _, _, none, _⟩, _, hmem => by simp [usesAt] at hmem
  | parent?, .spread s, h, hmem => by
      rw [usesAt] at hmem
      obtain rfl := List.mem_singleton.mp hmem
      exact h
  | parent?, .inline ⟨condition, _, set, _⟩, h, hmem => by
      rw [usesAt] at hmem
      rcases List.mem_cons.mp hmem with rfl | hmem
      · exact h
      · exact isKnown_of_mem_usesIn hcoherent _ set (isKnown_conditionType hcoherent h condition)
          hmem

end

theorem isKnown_of_mem_fragmentUses (hcoherent : schema.Coherent)
    (h : use ∈ document.fragmentUses schema) :
    IsKnown schema use.parent? := by
  obtain ⟨d, -, hmem⟩ := List.mem_flatMap.mp h
  cases d with
  | operation d => exact isKnown_of_mem_usesIn hcoherent _ _ (isKnown_bind hcoherent _ _) hmem
  | fragment d => exact isKnown_of_mem_usesIn hcoherent _ _ (isKnown_type? hcoherent _) hmem
  | _ => cases hmem

/-! ## Refused fragments -/

namespace FragmentUse

/-- The error of a fragment that is refused. -/
def impossible (use : FragmentUse) (parent type : TypeDef) : ValidationError :=
  ⟨.impossibleSpread use.name? parent.name type.name, [use.span]⟩

/-- What is wrong with the use of a fragment. -/
def error? (schema : Schema) (use : FragmentUse) : Option ValidationError :=
  match use.parent?, use.condition?.bind fun condition => schema.type? condition.name.text with
  | some parent, some type =>
      if type.isCompositeType && !schema.overlap type parent then some (use.impossible parent type)
      else none
  | _, _ => none

/-- The fragment stands where no object of the type around it could enter it, and both types are
composite ones of the schema with different names. -/
structure IsImpossible (schema : Schema) (use : FragmentUse) (parent type : TypeDef) : Prop where
  around : use.parent? = some parent
  condition : ∃ condition, use.condition? = some condition ∧
    schema.type? condition.name.text = some type
  composite : parent.isCompositeType ∧ type.isCompositeType
  names : parent.name ≠ type.name
  never : ∀ object, schema.type? object.name = some object → object.isObjectType →
    applies schema object.name (some (Schema.condition parent)) →
    ¬ applies schema object.name use.condition?

/-- No object could enter what is refused: it would make the types overlap. -/
theorem isImpossible_of_error? (hcoherent : schema.Coherent) (hknown : IsKnown schema use.parent?)
    {error : ValidationError} (h : use.error? schema = some error) :
    ∃ parent type, use.IsImpossible schema parent type ∧ error = use.impossible parent type := by
  unfold error? at h
  split at h
  · rename_i parent type hparent htype
    obtain ⟨condition, hcondition, htype⟩ := Option.bind_eq_some_iff.mp htype
    obtain ⟨hparentKnown, hparentComposite⟩ := hknown parent hparent
    split at h
    · rename_i hwrong
      obtain ⟨hcomposite, hapart⟩ := Bool.and_eq_true_iff.mp hwrong
      have hname := hcoherent.name_of_type? htype
      have hne : type.name ≠ parent.name := by
        intro heq
        simp [Schema.overlap, heq] at hapart
      have htypeKnown : schema.type? type.name = some type := by rwa [hname]
      refine ⟨parent, type, ⟨hparent, ⟨condition, hcondition, htype⟩,
        ⟨hparentComposite, hcomposite⟩, hne.symm, ?_⟩, (Option.some.inj h).symm⟩
      intro object hobject hisObject hparentApplies happlies
      have hshares : schema.Shares type parent object := by
        refine ⟨hobject, hisObject, ?_, ?_⟩
        · rw [hcondition] at happlies
          exact (Schema.applies_iff htype).mp happlies
        · exact (Schema.applies_iff hparentKnown).mp hparentApplies
      rw [Schema.overlap_of_shares htypeKnown hparentKnown hne hshares] at hapart
      cases hapart
    · cases h
  · cases h

theorem IsImpossible.error? (hcoherent : schema.Coherent) (hknown : IsKnown schema use.parent?)
    {parent type : TypeDef} (h : use.IsImpossible schema parent type) :
    use.error? schema = some (use.impossible parent type) := by
  obtain ⟨hparent, ⟨condition, hcondition, htype⟩, ⟨hparentComposite, hcomposite⟩, hnames,
    hnever⟩ := h
  obtain ⟨hparentKnown, -⟩ := hknown parent hparent
  have htypeKnown : schema.type? type.name = some type := by
    rwa [hcoherent.name_of_type? htype]
  have hapart : schema.overlap type parent = false := by
    by_contra hoverlap
    obtain ⟨object, hobject, hisObject, htypeShares, hparentShares⟩ :=
      Schema.exists_shares_of_overlap hcoherent htypeKnown hparentKnown hnames.symm hcomposite
        hparentComposite (by simpa using hoverlap)
    refine hnever object hobject hisObject ((Schema.applies_iff hparentKnown).mpr hparentShares)
      ?_
    rw [hcondition]
    exact (Schema.applies_iff htype).mpr htypeShares
  simp [FragmentUse.error?, hparent, hcondition, htype, hcomposite, hapart]

/-- What is refused is what no object could enter. -/
theorem error?_eq_some_iff (hcoherent : schema.Coherent) (hknown : IsKnown schema use.parent?)
    {error : ValidationError} : use.error? schema = some error ↔
      ∃ parent type, use.IsImpossible schema parent type ∧ error = use.impossible parent type := by
  constructor
  · intro h
    exact isImpossible_of_error? hcoherent hknown h
  · rintro ⟨parent, type, himpossible, rfl⟩
    exact himpossible.error? hcoherent hknown

end FragmentUse

end GraphQL
