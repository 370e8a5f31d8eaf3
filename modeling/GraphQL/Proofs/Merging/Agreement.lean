import Mathlib
import GraphQL.Proofs.Merging.Searched

/-!
# Fields that agree

After a search without conflicts, any two fields of one response key agree that can be seen
from one selection set, directly or through the fragments that it reaches
(`agree_of_linked`).  The search does not compare all of them one by one: two fragments are
compared once, each with what the other one spreads, and a set is not compared with
itself as a fragment.  The argument goes down the paths of spreads to both fields
(`agree_of_covers`); each step leads to fragments that count as compared.

What two fields select that agree is linked in turn (`linked_of_agree`), so the same holds of the
fields below.  Sets that were compared under objects which differ are linked in a weaker sense, in
which two fields need not be selections of one field (`Agree` with the flag that a comparison has
there); their types are of one shape nevertheless (`Agree.typesConflict_eq_false`).
-/

namespace GraphQL.Merging

variable {s : Setting} {document : Document} {memory : Memory} {place place₁ place₂ : Place}
  {f g : SelectedField} {exclusive : Bool}

/-! ## Fields of sets -/

/-- The set at a place holds a field, as the memory knows it. -/
def Holds (s : Setting) (document : Document) (memory : Memory) (place : Place)
    (f : SelectedField) : Prop :=
  ∃ inner parent, setAt? s document place = some inner ∧ memory.parent? place = some parent ∧
    f ∈ Selected.fieldsOf s.schema parent place 0 inner.selections

/-- Two fields of one key are the same, or were compared without conflicts, at least as strictly
as the flag says. -/
def Agree (s : Setting) (memory : Memory) (exclusive : Bool) (f g : SelectedField) : Prop :=
  f = g ∨ ∃ strict ≤ exclusive, Quiet s memory (.fields strict f.field.responseKey f g) ∨
    Quiet s memory (.fields strict g.field.responseKey g f)

theorem Agree.symm (h : Agree s memory exclusive f g) : Agree s memory exclusive g f :=
  h.elim (fun heq => Or.inl heq.symm) fun ⟨strict, hstrict, h⟩ => Or.inr ⟨strict, hstrict, h.symm⟩

theorem Agree.of_quiet (h : Quiet s memory (.fields exclusive f.field.responseKey f g)) :
    Agree s memory exclusive f g :=
  Or.inr ⟨exclusive, le_refl _, Or.inl h⟩

theorem Agree.mono {strict : Bool} (h : Agree s memory strict f g) (hstrict : strict ≤ exclusive) :
    Agree s memory exclusive f g :=
  h.imp_right fun ⟨found, hfound, h⟩ => ⟨found, hfound.trans hstrict, h⟩

/-- Fields that agree strictly agree in the weaker sense. -/
theorem Agree.of_strict (h : Agree s memory false f g) (exclusive : Bool) :
    Agree s memory exclusive f g :=
  h.mono (Bool.false_le exclusive)

theorem place_and_spreads_of_selected? {inner : SelectionSet} {set : Selected}
    (h : memory.selected? s place inner = some set) :
    set.place = place ∧ set.spreads = Selected.spreadsOfSet inner := by
  obtain ⟨parent, -, rfl⟩ := Option.map_eq_some_iff.mp h
  exact ⟨rfl, rfl⟩

/-- The field is in its row of what the set selects. -/
theorem Holds.exists_row {inner : SelectionSet} {set : Selected}
    (h : Holds s document memory place f) (hinner : setAt? s document place = some inner)
    (hset : memory.selected? s place inner = some set) :
    ∃ row, Assoc.get? set.groups f.field.responseKey = some row ∧ f ∈ row := by
  obtain ⟨inner', parent, hinner', hparent, hf⟩ := h
  obtain rfl : inner' = inner := Option.some.inj (hinner'.symm.trans hinner)
  rw [Memory.selected?, hparent, Option.map_some] at hset
  obtain rfl := Option.some.inj hset
  obtain ⟨row, hrow, hmem⟩ := Assoc.exists_row_of_mem (·.field.responseKey) hf
  exact ⟨row, Assoc.get?_of_mem (Assoc.nodup_keys_rows _ _) hrow, hmem⟩

/-- Fields of one key in two sets are compared when the sets are. -/
theorem mem_between_of_holds {inner₁ inner₂ : SelectionSet} {set₁ set₂ : Selected}
    (hinner₁ : setAt? s document place₁ = some inner₁)
    (hset₁ : memory.selected? s place₁ inner₁ = some set₁)
    (hinner₂ : setAt? s document place₂ = some inner₂)
    (hset₂ : memory.selected? s place₂ inner₂ = some set₂)
    (hf : Holds s document memory place₁ f) (hg : Holds s document memory place₂ g)
    (hkey : f.field.responseKey = g.field.responseKey) :
    .fields exclusive f.field.responseKey f g ∈ between exclusive set₁.groups set₂.groups := by
  obtain ⟨row₁, hrow₁, hmem₁⟩ := hf.exists_row hinner₁ hset₁
  obtain ⟨row₂, hrow₂, hmem₂⟩ := hg.exists_row hinner₂ hset₂
  exact mem_between_iff.mpr
    ⟨_, row₁, row₂, f, g, rfl, Assoc.mem_of_get? hrow₁, hmem₁, hkey ▸ hrow₂, hmem₂⟩

theorem mem_withinRow_or {key : String} {row : List SelectedField} (hf : f ∈ row)
    (hg : g ∈ row) : f = g ∨ .fields false key f g ∈ withinRow key row ∨
      .fields false key g f ∈ withinRow key row := by
  induction row with
  | nil => cases hf
  | cons first rest ih =>
      rw [withinRow]
      rcases List.mem_cons.mp hf with rfl | hf'
      · rcases List.mem_cons.mp hg with heq | hg'
        · exact Or.inl heq.symm
        · exact Or.inr (Or.inl (List.mem_append_left _ (List.mem_map_of_mem hg')))
      · rcases List.mem_cons.mp hg with rfl | hg'
        · exact Or.inr (Or.inr (List.mem_append_left _ (List.mem_map_of_mem hf')))
        · exact (ih hf' hg').imp_right (Or.imp (List.mem_append_right _) (List.mem_append_right _))

/-! ## Paths of spreads -/

/-- A fragment spreads another. -/
def SpreadsTo (s : Setting) (name other : String) : Prop :=
  ∃ place fragment, Assoc.get? s.fragments name = some (place, fragment) ∧
    other ∈ Selected.spreadsOfSet fragment.selectionSet

theorem SpreadsBut.spreadsTo {home : Place} {name other : String} (h : SpreadsBut s home name other) :
    SpreadsTo s name other := by
  obtain ⟨place, fragment, hname, -, hspread⟩ := h
  exact ⟨place, fragment, hname, hspread⟩

/-- A path of so many spreads from one fragment to another. -/
inductive SpreadsIn (s : Setting) : ℕ → String → String → Prop where
  | refl (name : String) : SpreadsIn s 0 name name
  | head {n : ℕ} {name middle other : String} (hstep : SpreadsTo s name middle)
    (hpath : SpreadsIn s n middle other) : SpreadsIn s (n + 1) name other

theorem exists_spreadsIn {name other : String}
    (h : Relation.ReflTransGen (SpreadsTo s) name other) : ∃ n, SpreadsIn s n name other := by
  induction h using Relation.ReflTransGen.head_induction_on with
  | refl => exact ⟨0, .refl other⟩
  | head hstep _ ih =>
      obtain ⟨n, hpath⟩ := ih
      exact ⟨n + 1, .head hstep hpath⟩

theorem SpreadsIn.reaches {n : ℕ} {name other : String} (h : SpreadsIn s n name other) :
    Relation.ReflTransGen (SpreadsTo s) name other := by
  induction h with
  | refl => exact .refl
  | head hstep _ ih => exact .head hstep ih

theorem exists_fragment_of_spreadsIn {n : ℕ} {name other : String}
    {placed : Place × FragmentDefinition} (h : SpreadsIn s n name other)
    (hother : Assoc.get? s.fragments other = some placed) :
    ∃ first, Assoc.get? s.fragments name = some first := by
  cases h with
  | refl => exact ⟨placed, hother⟩
  | head hstep _ =>
      obtain ⟨place, fragment, hname, -⟩ := hstep
      exact ⟨_, hname⟩

/-- A path that leads away from a set for the last time goes on from what the set itself
spreads; if it never comes there, it stays away. -/
theorem exists_spreadsBut {home : Place} {name other : String} {fragment : FragmentDefinition}
    (h : Relation.ReflTransGen (SpreadsTo s) name other)
    (hother : Assoc.get? s.fragments other = some (place, fragment)) (hplace : place ≠ home) :
    Relation.ReflTransGen (SpreadsBut s home) name other ∨
      ∃ between around first, Assoc.get? s.fragments between = some (home, around) ∧
        first ∈ Selected.spreadsOfSet around.selectionSet ∧
        Relation.ReflTransGen (SpreadsBut s home) first other := by
  induction h generalizing place fragment with
  | refl => exact Or.inl .refl
  | @tail middle last _ hstep ih =>
      obtain ⟨middlePlace, middleFragment, hmiddle, hspread⟩ := hstep
      by_cases hhome : middlePlace = home
      · subst hhome
        exact Or.inr ⟨middle, middleFragment, last, hmiddle, hspread, .refl⟩
      · have hlast : SpreadsBut s home middle last :=
          ⟨middlePlace, middleFragment, hmiddle, hhome, hspread⟩
        rcases ih hmiddle hhome with hpath | ⟨between, around, first, hbetween, hfirst, hpath⟩
        · exact Or.inl (hpath.tail hlast)
        · exact Or.inr ⟨between, around, first, hbetween, hfirst, hpath.tail hlast⟩

/-! ## Linked sets -/

/-- A field that is seen from a set: one of its own, or of the fragments that it reaches. -/
inductive Visible (s : Setting) (document : Document) (memory : Memory) (place : Place)
    (f : SelectedField) : Prop where
  | own (h : Holds s document memory place f)
  | reached {inner : SelectionSet} {first name : String} {other : Place}
    {fragment : FragmentDefinition} (hinner : setAt? s document place = some inner)
    (hfirst : first ∈ Selected.spreadsOfSet inner)
    (hpath : Relation.ReflTransGen (SpreadsTo s) first name)
    (hname : Assoc.get? s.fragments name = some (other, fragment))
    (h : Holds s document memory other f)

/-- Two sets were compared without conflicts. -/
def Faces (s : Setting) (document : Document) (memory : Memory) (exclusive : Bool)
    (place₁ place₂ : Place) : Prop :=
  ∃ inner₁ inner₂ set₁ set₂, setAt? s document place₁ = some inner₁ ∧
    setAt? s document place₂ = some inner₂ ∧ memory.selected? s place₁ inner₁ = some set₁ ∧
    memory.selected? s place₂ inner₂ = some set₂ ∧
    ∀ c, Facing s memory exclusive set₁ set₂ c → Quiet s memory c

/-- Two sets are the same, or were compared. -/
def Linked (s : Setting) (document : Document) (memory : Memory) (exclusive : Bool)
    (place₁ place₂ : Place) : Prop :=
  place₁ = place₂ ∨ Faces s document memory exclusive place₁ place₂ ∨
    Faces s document memory exclusive place₂ place₁

/-! ## One set -/

section

variable (hs : s.fragments = placedFragments document) (hsearched : Searched s document memory)
include hsearched

/-- Fields of one set agree. -/
theorem agree_of_holds (hf : Holds s document memory place f) (hg : Holds s document memory place g)
    (hkey : f.field.responseKey = g.field.responseKey) : Agree s memory exclusive f g := by
  obtain ⟨inner, _, hinner, -⟩ := id hf
  obtain ⟨set, hset, hcompared⟩ := hsearched.set place inner hinner
  obtain ⟨row, hrow, hmem⟩ := hf.exists_row hinner hset
  obtain ⟨row', hrow', hmem'⟩ := hg.exists_row hinner hset
  obtain rfl : row = row' := Option.some.inj (hrow.symm.trans (hkey ▸ hrow'))
  have hwithin : ∀ c ∈ withinRow f.field.responseKey row, Quiet s memory c := fun c hc =>
    hcompared.within c (List.mem_flatMap.mpr ⟨_, Assoc.mem_of_get? hrow, hc⟩)
  refine Agree.of_strict ?_ exclusive
  rcases mem_withinRow_or hmem hmem' with heq | hasked | hasked
  · exact Or.inl heq
  · exact Agree.of_quiet (hwithin _ hasked)
  · exact (Agree.of_quiet (hkey ▸ hwithin _ hasked)).symm

include hs

/-- A field of a set agrees with those of a fragment that it was compared with, as one that some
names reach on a path which does not come by the set. -/
theorem agree_of_spreadsBut {inner : SelectionSet} {set : Selected} {names : List String}
    {first name : String} {fragment : FragmentDefinition}
    (hinner : setAt? s document place = some inner)
    (hset : memory.selected? s place inner = some set)
    (hquiet : ∀ other, Opens s memory place names other →
      ∀ c ∈ between exclusive set.groups other.groups, Quiet s memory c)
    (hfirst : first ∈ names) (hpath : Relation.ReflTransGen (SpreadsBut s place) first name)
    (hname : Assoc.get? s.fragments name = some (place₂, fragment)) (hplace : place₂ ≠ place)
    (hf : Holds s document memory place f) (hg : Holds s document memory place₂ g)
    (hkey : f.field.responseKey = g.field.responseKey) : Agree s memory exclusive f g := by
  have hfragment := setAt?_of_mem_placedFragments (s := s) (hs ▸ Assoc.mem_of_get? hname)
  obtain ⟨other, hother, -⟩ := hsearched.set place₂ _ hfragment
  have hopens : Opens s memory place names other :=
    ⟨name, place₂, fragment, mem_reach_of_reaches hfirst hpath hname hplace, hother⟩
  refine Agree.of_quiet (hquiet other hopens _ ?_)
  exact mem_between_of_holds hinner hset hfragment hother hf hg hkey

/-- A field of a set agrees with those of the fragments that the set reaches. -/
theorem agree_of_reached {inner : SelectionSet} {first name : String} {fragment : FragmentDefinition}
    (hinner : setAt? s document place = some inner)
    (hfirst : first ∈ Selected.spreadsOfSet inner)
    (hpath : Relation.ReflTransGen (SpreadsTo s) first name)
    (hname : Assoc.get? s.fragments name = some (place₂, fragment))
    (hf : Holds s document memory place f) (hg : Holds s document memory place₂ g)
    (hkey : f.field.responseKey = g.field.responseKey) : Agree s memory exclusive f g := by
  by_cases hplace : place₂ = place
  · exact agree_of_holds hsearched hf (hplace ▸ hg) hkey
  obtain ⟨set, hset, hcompared⟩ := hsearched.set place inner hinner
  have hquiet := hcompared.reached
  rw [(place_and_spreads_of_selected? hset).1, (place_and_spreads_of_selected? hset).2] at hquiet
  refine Agree.of_strict ?_ exclusive
  rcases exists_spreadsBut hpath hname hplace with hpath | ⟨_, around, next, haround, hnext, hpath⟩
  · exact agree_of_spreadsBut hs hsearched hinner hset hquiet hfirst hpath hname hplace hf hg hkey
  · have hsame := setAt?_of_mem_placedFragments (s := s) (hs ▸ Assoc.mem_of_get? haround)
    obtain rfl : around.selectionSet = inner := Option.some.inj (hsame.symm.trans hinner)
    exact agree_of_spreadsBut hs hsearched hinner hset hquiet hnext hpath hname hplace hf hg hkey

/-- A field of a set agrees with those of the fragments that another set reaches, which it was
compared with. -/
theorem agree_of_opens {inner : SelectionSet} {set : Selected} {names : List String}
    {first name : String} {fragment : FragmentDefinition}
    (hinner : setAt? s document place = some inner)
    (hset : memory.selected? s place inner = some set)
    (hquiet : ∀ other, Opens s memory place names other →
      ∀ c ∈ between exclusive set.groups other.groups, Quiet s memory c)
    (hfirst : first ∈ names) (hpath : Relation.ReflTransGen (SpreadsTo s) first name)
    (hname : Assoc.get? s.fragments name = some (place₂, fragment))
    (hf : Holds s document memory place f) (hg : Holds s document memory place₂ g)
    (hkey : f.field.responseKey = g.field.responseKey) : Agree s memory exclusive f g := by
  by_cases hplace : place₂ = place
  · exact agree_of_holds hsearched hf (hplace ▸ hg) hkey
  rcases exists_spreadsBut hpath hname hplace with hpath | ⟨_, around, next, haround, hnext, hpath⟩
  · exact agree_of_spreadsBut hs hsearched hinner hset hquiet hfirst hpath hname hplace hf hg hkey
  · -- The path comes by the set itself, which was compared with what it reaches.
    have hsame := setAt?_of_mem_placedFragments (s := s) (hs ▸ Assoc.mem_of_get? haround)
    obtain rfl : around.selectionSet = inner := Option.some.inj (hsame.symm.trans hinner)
    have hpath := Relation.ReflTransGen.mono (fun _ _ h => h.spreadsTo) _ _ hpath
    exact agree_of_reached hs hsearched hinner hnext hpath hname hf hg hkey

omit hs in
/-- Fragments that a set spreads count as compared, whatever is asked of them. -/
theorem covers_of_mem_spreads {inner : SelectionSet} {name₁ name₂ : String}
    (hinner : setAt? s document place = some inner)
    (hname₁ : name₁ ∈ Selected.spreadsOfSet inner) (hname₂ : name₂ ∈ Selected.spreadsOfSet inner) :
    memory.covers exclusive name₁ name₂ = true := by
  obtain ⟨set, hset, hcompared⟩ := hsearched.set place inner hinner
  obtain ⟨-, hspreads⟩ := place_and_spreads_of_selected? hset
  rw [← hspreads] at hname₁ hname₂
  refine Memory.covers_of_strict ?_ exclusive
  by_cases hsame : name₁ = name₂
  · exact hsame ▸ memory.covers_self false name₁
  · have : Std.Symm fun name₁ name₂ => memory.covers false name₁ name₂ = true :=
      ⟨fun name₁ name₂ h => by rwa [Memory.covers_comm]⟩
    exact hcompared.spreads.forall hname₁ hname₂ hsame

/-! ## Two fragments -/

omit hs hsearched in
theorem covers_mono {strict : Bool} {name₁ name₂ : String} (hstrict : strict ≤ exclusive)
    (h : memory.covers strict name₁ name₂ = true) : memory.covers exclusive name₁ name₂ = true := by
  cases strict with
  | false => exact Memory.covers_of_strict h exclusive
  | true => rwa [Bool.eq_true_of_true_le hstrict]

omit hsearched in
/-- What is known of two fragments that are closed. -/
theorem agree_of_closed {name₁ name₂ : String} {fragment₁ fragment₂ : FragmentDefinition}
    (hclosed : Closed s memory exclusive name₁ name₂)
    (hname₁ : Assoc.get? s.fragments name₁ = some (place₁, fragment₁))
    (hname₂ : Assoc.get? s.fragments name₂ = some (place₂, fragment₂)) :
    (∀ f g, Holds s document memory place₁ f → Holds s document memory place₂ g →
        f.field.responseKey = g.field.responseKey → Agree s memory exclusive f g) ∧
      (∀ name ∈ Selected.spreadsOfSet fragment₁.selectionSet,
        memory.covers exclusive name name₂ = true) ∧
      ∀ name ∈ Selected.spreadsOfSet fragment₂.selectionSet,
        memory.covers exclusive name₁ name = true := by
  have hset₁ := setAt?_of_mem_placedFragments (s := s) (hs ▸ Assoc.mem_of_get? hname₁)
  have hset₂ := setAt?_of_mem_placedFragments (s := s) (hs ▸ Assoc.mem_of_get? hname₂)
  obtain ⟨set₁, set₂, hselected₁, hselected₂, hquiet, hspreads₂, hspreads₁⟩ :=
    hclosed _ _ _ _ hname₁ hname₂
  rw [(place_and_spreads_of_selected? hselected₁).2] at hspreads₁
  rw [(place_and_spreads_of_selected? hselected₂).2] at hspreads₂
  refine ⟨fun f g hf hg hkey => Agree.of_quiet (hquiet _ ?_), hspreads₁, hspreads₂⟩
  exact mem_between_of_holds hset₁ hselected₁ hset₂ hselected₂ hf hg hkey

omit hsearched in
/-- What is known of two fragments that count as compared, whichever was named first. -/
theorem agree_of_closedPair {name₁ name₂ : String} {fragment₁ fragment₂ : FragmentDefinition}
    (hclosed : ClosedPair s memory exclusive name₁ name₂)
    (hname₁ : Assoc.get? s.fragments name₁ = some (place₁, fragment₁))
    (hname₂ : Assoc.get? s.fragments name₂ = some (place₂, fragment₂)) :
    (∀ f g, Holds s document memory place₁ f → Holds s document memory place₂ g →
        f.field.responseKey = g.field.responseKey → Agree s memory exclusive f g) ∧
      (∀ name ∈ Selected.spreadsOfSet fragment₁.selectionSet,
        memory.covers exclusive name name₂ = true) ∧
      ∀ name ∈ Selected.spreadsOfSet fragment₂.selectionSet,
        memory.covers exclusive name₁ name = true := by
  obtain ⟨strict, hstrict, hclosed | hclosed⟩ := hclosed
  · obtain ⟨hagree, hleft, hright⟩ := agree_of_closed hs hclosed hname₁ hname₂
    exact ⟨fun f g hf hg hkey => (hagree f g hf hg hkey).mono hstrict,
      fun name hname => covers_mono hstrict (hleft name hname),
      fun name hname => covers_mono hstrict (hright name hname)⟩
  · obtain ⟨hagree, hleft, hright⟩ := agree_of_closed hs hclosed hname₂ hname₁
    refine ⟨fun f g hf hg hkey => ((hagree g f hg hf hkey.symm).mono hstrict).symm,
      fun name hname => ?_, fun name hname => ?_⟩
    · exact covers_mono hstrict (memory.covers_comm strict name name₂ ▸ hright name hname)
    · exact covers_mono hstrict (memory.covers_comm strict name₁ name ▸ hleft name hname)

/-- Fields of fragments agree that are reached from fragments which count as compared.  The
induction is on the length of both paths together. -/
theorem agree_of_covers (n : ℕ) {i j : ℕ} {first₁ first₂ name₁ name₂ : String}
    {fragment₁ fragment₂ : FragmentDefinition} (hn : i + j = n)
    (hcovers : memory.covers exclusive first₁ first₂ = true)
    (hpath₁ : SpreadsIn s i first₁ name₁) (hpath₂ : SpreadsIn s j first₂ name₂)
    (hname₁ : Assoc.get? s.fragments name₁ = some (place₁, fragment₁))
    (hname₂ : Assoc.get? s.fragments name₂ = some (place₂, fragment₂))
    (hf : Holds s document memory place₁ f) (hg : Holds s document memory place₂ g)
    (hkey : f.field.responseKey = g.field.responseKey) : Agree s memory exclusive f g := by
  induction n using Nat.strong_induction_on generalizing i j first₁ first₂ with
  | _ n ih =>
      rcases hsearched.closed exclusive first₁ first₂ hcovers with rfl | hclosed
      · cases hpath₁ with
        | refl =>
            cases hpath₂ with
            | refl =>
                obtain ⟨rfl, -⟩ : place₁ = place₂ ∧ fragment₁ = fragment₂ := by
                  simpa [hname₁] using hname₂
                exact agree_of_holds hsearched hf hg hkey
            | head hstep hpath =>
                obtain ⟨place, fragment, hfirst, hspread⟩ := hstep
                obtain ⟨rfl, rfl⟩ : place₁ = place ∧ fragment₁ = fragment := by
                  simpa [hname₁] using hfirst
                have hset := setAt?_of_mem_placedFragments (s := s) (hs ▸ Assoc.mem_of_get? hname₁)
                exact agree_of_reached hs hsearched hset hspread hpath.reaches hname₂ hf hg hkey
        | head hstep₁ hpath₁ =>
            obtain ⟨place, fragment, hfirst, hspread₁⟩ := hstep₁
            have hset := setAt?_of_mem_placedFragments (s := s) (hs ▸ Assoc.mem_of_get? hfirst)
            cases hpath₂ with
            | refl =>
                obtain ⟨rfl, rfl⟩ : place₂ = place ∧ fragment₂ = fragment := by
                  simpa [hname₂] using hfirst
                exact (agree_of_reached hs hsearched hset hspread₁ hpath₁.reaches hname₁ hg hf
                  hkey.symm).symm
            | head hstep₂ hpath₂ =>
                obtain ⟨place', fragment', hfirst', hspread₂⟩ := hstep₂
                obtain ⟨rfl, rfl⟩ : place = place' ∧ fragment = fragment' := by
                  simpa [hfirst] using hfirst'
                exact ih _ (by omega) rfl (covers_of_mem_spreads hsearched hset hspread₁ hspread₂)
                  hpath₁ hpath₂
      · obtain ⟨⟨place₁', fragment₁'⟩, hfirst₁⟩ := exists_fragment_of_spreadsIn hpath₁ hname₁
        obtain ⟨⟨place₂', fragment₂'⟩, hfirst₂⟩ := exists_fragment_of_spreadsIn hpath₂ hname₂
        obtain ⟨hagree, hleft, hright⟩ :=
          agree_of_closedPair hs hclosed hfirst₁ hfirst₂
        cases hpath₁ with
        | refl =>
            obtain ⟨rfl, rfl⟩ : place₁ = place₁' ∧ fragment₁ = fragment₁' := by
              simpa [hname₁] using hfirst₁
            cases hpath₂ with
            | refl =>
                obtain ⟨rfl, rfl⟩ : place₂ = place₂' ∧ fragment₂ = fragment₂' := by
                  simpa [hname₂] using hfirst₂
                exact hagree f g hf hg hkey
            | head hstep hpath₂ =>
                obtain ⟨place, fragment, hfirst, hspread⟩ := hstep
                obtain ⟨rfl, rfl⟩ : place₂' = place ∧ fragment₂' = fragment := by
                  simpa [hfirst₂] using hfirst
                exact ih _ (by omega) rfl (hright _ hspread) (.refl _) hpath₂
        | head hstep hpath₁ =>
            obtain ⟨place, fragment, hfirst, hspread⟩ := hstep
            obtain ⟨rfl, rfl⟩ : place₁' = place ∧ fragment₁' = fragment := by
              simpa [hfirst₁] using hfirst
            exact ih _ (by omega) rfl (hleft _ hspread) hpath₁ hpath₂

/-! ## Two sets -/

theorem agree_of_faces (hfaces : Faces s document memory exclusive place₁ place₂)
    (hf : Visible s document memory place₁ f) (hg : Visible s document memory place₂ g)
    (hkey : f.field.responseKey = g.field.responseKey) : Agree s memory exclusive f g := by
  obtain ⟨inner₁, inner₂, set₁, set₂, hinner₁, hinner₂, hset₁, hset₂, hquiet⟩ := hfaces
  obtain ⟨hplace₁, hspreads₁⟩ := place_and_spreads_of_selected? hset₁
  obtain ⟨hplace₂, hspreads₂⟩ := place_and_spreads_of_selected? hset₂
  cases hf with
  | own hf =>
      cases hg with
      | own hg =>
          refine Agree.of_quiet (hquiet _ (.own ?_))
          exact mem_between_of_holds hinner₁ hset₁ hinner₂ hset₂ hf hg hkey
      | reached hinner hfirst hpath hname hg =>
          obtain rfl := Option.some.inj (hinner.symm.trans hinner₂)
          refine agree_of_opens hs hsearched hinner₁ hset₁ (fun other hother c hc => ?_) hfirst
            hpath hname hf hg hkey
          exact hquiet c (.second (by rwa [hplace₁, hspreads₂]) hc)
  | reached hinner hfirst hpath hname hf =>
      obtain rfl := Option.some.inj (hinner.symm.trans hinner₁)
      cases hg with
      | own hg =>
          refine (agree_of_opens hs hsearched hinner₂ hset₂ (fun other hother c hc => ?_) hfirst
            hpath hname hg hf hkey.symm).symm
          exact hquiet c (.first (by rwa [hplace₂, hspreads₁]) hc)
      | reached hinner' hfirst' hpath' hname' hg =>
          obtain rfl := Option.some.inj (hinner'.symm.trans hinner₂)
          obtain ⟨i, hpath⟩ := exists_spreadsIn hpath
          obtain ⟨j, hpath'⟩ := exists_spreadsIn hpath'
          refine agree_of_covers hs hsearched _ rfl (Quiet.covers (hquiet _ (.spreads ?_))) hpath
            hpath' hname hname' hf hg hkey
          rw [hspreads₁, hspreads₂]
          exact mem_betweenSpreads_iff.mpr ⟨_, hfirst, _, hfirst', rfl⟩

theorem agree_of_visible (hf : Visible s document memory place f)
    (hg : Visible s document memory place g)
    (hkey : f.field.responseKey = g.field.responseKey) : Agree s memory exclusive f g := by
  cases hf with
  | own hf =>
      cases hg with
      | own hg => exact agree_of_holds hsearched hf hg hkey
      | reached hinner hfirst hpath hname hg =>
          exact agree_of_reached hs hsearched hinner hfirst hpath hname hf hg hkey
  | reached hinner hfirst hpath hname hf =>
      cases hg with
      | own hg =>
          exact (agree_of_reached hs hsearched hinner hfirst hpath hname hg hf hkey.symm).symm
      | reached hinner' hfirst' hpath' hname' hg =>
          obtain rfl := Option.some.inj (hinner.symm.trans hinner')
          obtain ⟨i, hpath⟩ := exists_spreadsIn hpath
          obtain ⟨j, hpath'⟩ := exists_spreadsIn hpath'
          exact agree_of_covers hs hsearched _ rfl
            (covers_of_mem_spreads hsearched hinner hfirst hfirst') hpath hpath' hname hname' hf hg
            hkey

/-- Fields of one key that are seen from linked sets agree. -/
theorem agree_of_linked (hlinked : Linked s document memory exclusive place₁ place₂)
    (hf : Visible s document memory place₁ f) (hg : Visible s document memory place₂ g)
    (hkey : f.field.responseKey = g.field.responseKey) : Agree s memory exclusive f g := by
  rcases hlinked with rfl | hfaces | hfaces
  · exact agree_of_visible hs hsearched hf hg hkey
  · exact agree_of_faces hs hsearched hfaces hf hg hkey
  · exact (agree_of_faces hs hsearched hfaces hg hf hkey.symm).symm

end

/-! ## What agreement means -/

/-- Arguments by their names, with the values as they are printed. -/
def printedArguments (given : List Argument) : List (String × String) :=
  given.map fun a => (a.name.text, a.value.text)

theorem perm_of_sameArguments {given₁ given₂ : List Argument}
    (h : sameArguments given₁ given₂ = true) (hnodup : (given₁.map (·.name.text)).Nodup) :
    (printedArguments given₁).Perm (printedArguments given₂) := by
  obtain ⟨hlength, hall⟩ : given₁.length = given₂.length ∧ _ := by
    simpa only [sameArguments, Bool.and_eq_true, decide_eq_true_eq] using h
  have hsubset : printedArguments given₁ ⊆ printedArguments given₂ := by
    intro pair hpair
    obtain ⟨a, ha, rfl⟩ := List.mem_map.mp hpair
    have hfound := List.all_eq_true.mp hall a ha
    cases hfind : given₂.find? (·.name.text = a.name.text) with
    | none => simp [hfind] at hfound
    | some b =>
        have hvalue : a.value.text = b.value.text := by simpa [hfind] using hfound
        have hname : b.name.text = a.name.text := by simpa using List.find?_some hfind
        refine List.mem_map.mpr ⟨b, List.mem_of_find?_eq_some hfind, ?_⟩
        rw [hname, hvalue]
  have hpairs : (printedArguments given₁).Nodup := by
    refine List.Nodup.of_map Prod.fst ?_
    rwa [printedArguments, List.map_map]
  refine (List.subperm_of_subset hpairs hsubset).perm_of_length_le ?_
  simp [printedArguments, hlength]

theorem parentsDiffer_comm (f g : SelectedField) : parentsDiffer f g = parentsDiffer g f := by
  unfold parentsDiffer
  cases f.parent with
  | none => cases g.parent <;> rfl
  | some a =>
      cases g.parent with
      | none => rfl
      | some b => simp only [bne_comm, Bool.and_assoc, Bool.and_comm b.isObjectType]

theorem Quiet.same {key : String} (h : Quiet s memory (.fields false key f g))
    (hdiffer : parentsDiffer f g = false) :
    f.field.name.text = g.field.name.text ∧
      sameArguments f.field.arguments g.field.arguments = true := by
  have hreason := h.ownReason?_eq_none
  rw [hdiffer, Bool.or_false] at hreason
  unfold ownReason? at hreason
  by_cases hname : f.field.name.text = g.field.name.text
  · refine ⟨hname, ?_⟩
    by_contra hsame
    rw [Bool.not_eq_true] at hsame
    simp [hname, hsame] at hreason
  · simp [hname] at hreason

theorem Quiet.faces {key : String} {inner₁ inner₂ : SelectionSet}
    (hsearched : Searched s document memory) (h : Quiet s memory (.fields exclusive key f g))
    (hf : f.field.selectionSet = some inner₁) (hg : g.field.selectionSet = some inner₂)
    (hset₁ : setAt? s document f.place = some inner₁)
    (hset₂ : setAt? s document g.place = some inner₂) :
    Faces s document memory (exclusive || parentsDiffer f g) f.place g.place := by
  obtain ⟨set₁, hselected₁, -⟩ := hsearched.set _ _ hset₁
  obtain ⟨set₂, hselected₂, -⟩ := hsearched.set _ _ hset₂
  refine ⟨inner₁, inner₂, set₁, set₂, hset₁, hset₂, hselected₁, hselected₂, fun c hc => ?_⟩
  exact h.of_leads (.intro h.ownReason?_eq_none hf hg hselected₁ hselected₂ hc)

/-- Fields that agree, and may be of one object, have one name and the same arguments. -/
theorem Agree.same (h : Agree s memory false f g) (hdiffer : parentsDiffer f g = false)
    (hf : (f.field.arguments.map (·.name.text)).Nodup)
    (hg : (g.field.arguments.map (·.name.text)).Nodup) :
    f.field.name.text = g.field.name.text ∧
      (printedArguments f.field.arguments).Perm (printedArguments g.field.arguments) := by
  rcases h with rfl | ⟨strict, hstrict, h⟩
  · exact ⟨rfl, .refl _⟩
  obtain rfl := Bool.eq_false_of_le_false hstrict
  rcases h with h | h
  · obtain ⟨hname, hsame⟩ := h.same hdiffer
    exact ⟨hname, perm_of_sameArguments hsame hf⟩
  · obtain ⟨hname, hsame⟩ := h.same (parentsDiffer_comm g f ▸ hdiffer)
    exact ⟨hname.symm, (perm_of_sameArguments hsame hg).symm⟩

/-- Types that both fields are known to have are of one shape. -/
theorem Agree.typesConflict_eq_false {d d' : FieldDef} (h : Agree s memory exclusive f g)
    (hd : f.definition = some d) (hd' : g.definition = some d') :
    f = g ∨ typesConflict s.schema d.type d'.type = false ∨
      typesConflict s.schema d'.type d.type = false := by
  have hquiet {strict : Bool} {key : String} {f g : SelectedField} {d d' : FieldDef}
      (h : Quiet s memory (.fields strict key f g)) (hd : f.definition = some d)
      (hd' : g.definition = some d') : typesConflict s.schema d.type d'.type = false := by
    have hreason := h.ownReason?_eq_none
    unfold ownReason? at hreason
    simp only [hd, hd'] at hreason
    by_contra hconflict
    rw [Bool.not_eq_false] at hconflict
    rw [hconflict, if_pos rfl] at hreason
    split at hreason
    · cases hreason
    · split at hreason <;> cases hreason
  rcases h with rfl | ⟨strict, -, h | h⟩
  · exact Or.inl rfl
  · exact Or.inr (Or.inl (hquiet h hd hd'))
  · exact Or.inr (Or.inr (hquiet h hd' hd))

/-- What fields select that agree is linked. -/
theorem exists_linked_of_agree {inner₁ inner₂ : SelectionSet}
    (hsearched : Searched s document memory) (h : Agree s memory exclusive f g)
    (hf : f.field.selectionSet = some inner₁) (hg : g.field.selectionSet = some inner₂)
    (hset₁ : setAt? s document f.place = some inner₁)
    (hset₂ : setAt? s document g.place = some inner₂) :
    ∃ flag ≤ exclusive || parentsDiffer f g, Linked s document memory flag f.place g.place := by
  rcases h with rfl | ⟨strict, hstrict, h⟩
  · exact ⟨_, le_refl _, Or.inl rfl⟩
  refine ⟨strict || parentsDiffer f g, sup_le_sup_right hstrict _, Or.inr ?_⟩
  rcases h with h | h
  · exact Or.inl (h.faces hsearched hf hg hset₁ hset₂)
  · exact Or.inr (parentsDiffer_comm g f ▸ h.faces hsearched hg hf hset₂ hset₁)

/-- What fields select that agree and may be of one object is linked. -/
theorem linked_of_agree {inner₁ inner₂ : SelectionSet} (hsearched : Searched s document memory)
    (h : Agree s memory false f g) (hdiffer : parentsDiffer f g = false)
    (hf : f.field.selectionSet = some inner₁) (hg : g.field.selectionSet = some inner₂)
    (hset₁ : setAt? s document f.place = some inner₁)
    (hset₂ : setAt? s document g.place = some inner₂) :
    Linked s document memory false f.place g.place := by
  obtain ⟨flag, hflag, hlinked⟩ := exists_linked_of_agree hsearched h hf hg hset₁ hset₂
  rw [hdiffer] at hflag
  obtain rfl := Bool.eq_false_of_le_false hflag
  exact hlinked

end GraphQL.Merging
