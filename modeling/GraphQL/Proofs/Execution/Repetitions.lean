import Mathlib
import GraphQL.Proofs.Execution.Expansion

/-!
# What is gathered when fragments are followed once

Field collection follows a fragment only where it is spread for the first time.  If no fragment
leads back to itself, nothing is lost by that but repetitions: what is gathered is the expansion of
the selections without them (`Gathers.matches`).

Two things could go wrong.  A fragment that is not followed again might not have been gone through
before; but a fragment that is claimed without having been gone through is open, which means that
the selections at hand are in it or in what it spreads, and to spread it there would be to lead back
to it (`exists_known`).  And a field might be dropped that is met for the first time; but nothing
has been seen of what is still to come in the selections at hand, nor of any fragment that is left
(`Ready`).

The induction is over what is gathered.  What one selection comes to is told by `Went`; it makes the
selections after it ready (`Ready.next`), and what comes of them is added to it (`Went.append`).
-/

namespace GraphQL

open Merging (setAt? innerSet?)

namespace Grouping

/-- The fragment of one name spreads the other, at any depth.  Of fragments that share a name the
one that execution follows counts. -/
def Leads (fragments : FragmentTable) (name other : String) : Prop :=
  ∃ fragment spread, Assoc.get? fragments name = some fragment ∧
    fragment.selectionSet.HasSpread spread ∧ spread.name.text = other

/-- No way along spreads leads back to where it started. -/
def Acyclic (fragments : FragmentTable) : Prop :=
  ∀ name, ¬Relation.TransGen (Leads fragments) name name

variable {schema : Schema} {document : Document} {target : Target}
  {placed rest : List (Place × Selection)} {entry : Place × Selection}
  {unfollowed between left : FragmentTable} {nodes more : List FieldNode} {seen : List Place}
  {opened : List String}

/-- Of the fragments that have been followed to their ends, all that they come to has been seen. -/
def Followed (document : Document) (target : Target) (opened : List String)
    (unfollowed : FragmentTable) (seen : List Place) : Prop :=
  ∀ name home fragment, Assoc.get? document.placedTable name = some (home, fragment) →
    Assoc.get? unfollowed name = none → name ∉ opened →
    applies target.schema target.objectName (some fragment.typeCondition) →
      ∃ nodes, Expands document.placedTable target (fragment.selectionSet.placed home) nodes ∧
        ∀ node ∈ nodes, node.place ∈ seen

theorem Followed.mono {seen' : List Place} (h : Followed document target opened unfollowed seen)
    (hseen : seen ⊆ seen') : Followed document target opened unfollowed seen' := by
  intro name home fragment hplaced hnone hopened happlies
  obtain ⟨nodes, hexpands, hnodes⟩ := h name home fragment hplaced hnone hopened happlies
  exact ⟨nodes, hexpands, fun node hnode => hseen (hnodes node hnode)⟩

/-- Some selections are to be gone through, when some fragments have not been followed, the places
of some fields have been seen, and some fragments are open, since it is in them that the selections
stand. -/
structure Ready (schema : Schema) (document : Document) (target : Target)
    (placed : List (Place × Selection)) (unfollowed : FragmentTable) (seen : List Place)
    (opened : List String) : Prop where
  selectionAt : ∀ entry ∈ placed, document.selectionAt? schema entry.1 = some entry.2
  apart : placed.Pairwise fun a b => document.homeOf schema a.1 = document.homeOf schema b.1 →
    ∀ inner : Place, a.1 <:+ inner → ¬b.1 <:+ inner
  /-- Nothing has been seen of what is to come. -/
  fresh : ∀ entry ∈ placed, ∀ place ∈ seen,
    document.homeOf schema place = document.homeOf schema entry.1 → ¬entry.1 <:+ place
  /-- Nothing has been seen of a fragment that is left. -/
  ahead : ∀ name home fragment, (Assoc.get? unfollowed name).isSome →
    Assoc.get? document.placedTable name = some (home, fragment) →
    (∀ entry ∈ placed, document.homeOf schema entry.1 ≠ home) ∧
      ∀ place ∈ seen, document.homeOf schema place ≠ home
  followed : Followed document target opened unfollowed seen
  opened : ∀ name ∈ opened, Assoc.get? unfollowed name = none ∧ ∀ entry ∈ placed, ∀ spread,
    SelectionSet.HasSpread spread ⟨[entry.2], none⟩ →
      Relation.TransGen (Leads document.fragmentTable) name spread.name.text
  remains : Remains unfollowed document.fragmentTable

/-- Some selections have been gone through and come to some fields. -/
structure Went (schema : Schema) (document : Document) (target : Target)
    (placed : List (Place × Selection)) (unfollowed : FragmentTable) (seen : List Place)
    (opened : List String) (nodes : List FieldNode) (left : FragmentTable) : Prop where
  followed : Followed document target opened left (seen ++ nodes.map (·.place))
  /-- The fields were known, or they stand in the selections, or in a fragment that has been
  followed for the first time. -/
  whence : ∀ node ∈ nodes, node.place ∈ seen ∨
    (∃ entry ∈ placed, document.homeOf schema node.place = document.homeOf schema entry.1 ∧
      entry.1 <:+ node.place) ∨
    ∃ name home fragment, (Assoc.get? unfollowed name).isSome ∧ Assoc.get? left name = none ∧
      Assoc.get? document.placedTable name = some (home, fragment) ∧
      document.homeOf schema node.place = home
  remains : Remains left unfollowed

theorem Remains.isSome {name : String} (h : Remains left unfollowed)
    (hsome : (Assoc.get? left name).isSome) : (Assoc.get? unfollowed name).isSome := by
  obtain ⟨fragment, hfragment⟩ := Option.isSome_iff_exists.mp hsome
  exact Option.isSome_iff_exists.mpr ⟨fragment, h name fragment hfragment⟩

/-! ## One selection after the other -/

/-- After the first selection, the others are to be gone through. -/
theorem Ready.next (h : Ready schema document target (entry :: rest) unfollowed seen opened)
    (hwent : Went schema document target [entry] unfollowed seen opened nodes between) :
    Ready schema document target rest between (seen ++ nodes.map (·.place)) opened where
  selectionAt := (List.forall_mem_cons.mp h.selectionAt).2
  apart := (List.pairwise_cons.mp h.apart).2
  fresh := by
    intro later hlater place hplace hhome hsuffix
    rcases List.mem_append.mp hplace with hplace | hplace
    · exact h.fresh later (List.mem_cons_of_mem _ hlater) place hplace hhome hsuffix
    obtain ⟨node, hnode, rfl⟩ := List.mem_map.mp hplace
    rcases hwent.whence node hnode with hseen | ⟨first, hfirst, hfirstHome, hfirstSuffix⟩ |
      ⟨name, home, fragment, hsome, -, hplaced, hnodeHome⟩
    · exact h.fresh later (List.mem_cons_of_mem _ hlater) _ hseen hhome hsuffix
    -- What stands in the first selection does not stand in a later one of the same set.
    · obtain rfl := List.mem_singleton.mp hfirst
      exact (List.pairwise_cons.mp h.apart).1 later hlater (hfirstHome.symm.trans hhome) _
        hfirstSuffix hsuffix
    · exact (h.ahead name home fragment hsome hplaced).1 later (List.mem_cons_of_mem _ hlater)
        (hhome.symm.trans hnodeHome)
  ahead := by
    intro name home fragment hsome hplaced
    obtain ⟨hentries, hseen⟩ := h.ahead name home fragment (hwent.remains.isSome hsome) hplaced
    refine ⟨fun later hlater => hentries later (List.mem_cons_of_mem _ hlater), ?_⟩
    intro place hplace hhome
    rcases List.mem_append.mp hplace with hplace | hplace
    · exact hseen place hplace hhome
    obtain ⟨node, hnode, rfl⟩ := List.mem_map.mp hplace
    rcases hwent.whence node hnode with hmem | ⟨first, hfirst, hfirstHome, -⟩ |
      ⟨other, home', fragment', -, hnone, hplaced', hnodeHome⟩
    · exact hseen _ hmem hhome
    · obtain rfl := List.mem_singleton.mp hfirst
      exact hentries first List.mem_cons_self (hfirstHome.symm.trans hhome)
    -- The one fragment with a field at this home has been followed, so it is not left.
    · obtain rfl := hnodeHome.symm.trans hhome
      obtain rfl := Document.placedTable_injective hplaced hplaced'
      simp [hnone] at hsome
  followed := hwent.followed
  opened := by
    intro name hname
    obtain ⟨hnone, hspreads⟩ := h.opened name hname
    exact ⟨hwent.remains.eq_none hnone,
      fun later hlater => hspreads later (List.mem_cons_of_mem _ hlater)⟩
  remains := hwent.remains.trans h.remains

theorem Went.append (h : Went schema document target [entry] unfollowed seen opened nodes between)
    (hrest : Went schema document target rest between (seen ++ nodes.map (·.place)) opened more
      left) :
    Went schema document target (entry :: rest) unfollowed seen opened (nodes ++ more) left where
  followed := by
    rw [List.map_append, ← List.append_assoc]
    exact hrest.followed
  whence := by
    have hfirst : ∀ node ∈ nodes, node.place ∈ seen ∨
        (∃ first ∈ entry :: rest, document.homeOf schema node.place =
          document.homeOf schema first.1 ∧ first.1 <:+ node.place) ∨
        ∃ name home fragment, (Assoc.get? unfollowed name).isSome ∧ Assoc.get? left name = none ∧
          Assoc.get? document.placedTable name = some (home, fragment) ∧
          document.homeOf schema node.place = home := by
      intro node hnode
      refine (h.whence node hnode).imp_right (Or.imp ?_ ?_)
      · rintro ⟨first, hmem, hhome⟩
        exact ⟨first, List.mem_cons.mpr (.inl (List.mem_singleton.mp hmem)), hhome⟩
      · rintro ⟨name, home, fragment, hsome, hnone, hplaced⟩
        exact ⟨name, home, fragment, hsome, hrest.remains.eq_none hnone, hplaced⟩
    refine List.forall_mem_append.mpr ⟨hfirst, fun node hnode => ?_⟩
    rcases hrest.whence node hnode with hmem | ⟨later, hlater, hhome⟩ |
      ⟨name, home, fragment, hsome, hnone, hplaced⟩
    · rcases List.mem_append.mp hmem with hmem | hmem
      · exact .inl hmem
      · obtain ⟨same, hsame, hplace⟩ := List.mem_map.mp hmem
        exact hplace ▸ hfirst same hsame
    · exact .inr (.inl ⟨later, List.mem_cons_of_mem _ hlater, hhome⟩)
    · exact .inr (.inr ⟨name, home, fragment, h.remains.isSome hsome, hnone, hplaced⟩)
  remains := hrest.remains.trans h.remains

/-! ## Kinds of selections -/

variable {place home : Place}

/-- A fragment that execution can follow has a place. -/
theorem exists_home {name : String} {fragment : FragmentDefinition}
    (hremains : Remains unfollowed document.fragmentTable)
    (h : Assoc.get? unfollowed name = some fragment) :
    ∃ home, Assoc.get? document.placedTable name = some (home, fragment) := by
  have hfragment := hremains name fragment h
  rw [Document.get?_fragmentTable] at hfragment
  obtain ⟨⟨home, _⟩, hplaced, rfl⟩ := Option.map_eq_some_iff.mp hfragment
  exact ⟨home, hplaced⟩

theorem went_nothing (h : Ready schema document target (entry :: rest) unfollowed seen opened) :
    Went schema document target [entry] unfollowed seen opened [] unfollowed where
  followed := h.followed.mono (List.subset_append_left _ _)
  whence := List.forall_mem_nil _
  remains _ _ := id

theorem went_field {f : Field}
    (h : Ready schema document target ((place, .field f) :: rest) unfollowed seen opened) :
    Went schema document target [(place, .field f)] unfollowed seen opened [⟨place, f⟩]
      unfollowed where
  followed := h.followed.mono (List.subset_append_left _ _)
  whence := List.forall_mem_singleton.mpr
    (.inr (.inl ⟨_, List.mem_singleton_self _, rfl, List.suffix_refl place⟩))
  remains _ _ := id

/-- A fragment that is not for the object is claimed, and nothing comes of it. -/
theorem went_otherSpread {s : FragmentSpread} {fragment : FragmentDefinition}
    (h : Ready schema document target ((place, .spread s) :: rest) unfollowed seen opened)
    (hplaced : Assoc.get? document.placedTable s.name.text = some (home, fragment))
    (happlies : applies target.schema target.objectName (some fragment.typeCondition) = false) :
    Went schema document target [(place, .spread s)] unfollowed seen opened []
      (unclaimed unfollowed s.name.text) where
  followed := by
    intro name home' fragment' hplaced' hnone hopened happlies'
    rw [get?_unclaimed] at hnone
    by_cases hname : name = s.name.text
    · subst hname
      obtain ⟨-, rfl⟩ := Prod.mk.inj (Option.some.inj (hplaced.symm.trans hplaced'))
      exact absurd (happlies'.symm.trans happlies) Bool.noConfusion
    · rw [if_neg hname] at hnone
      exact h.followed.mono (List.subset_append_left _ _) name home' fragment' hplaced' hnone
        hopened happlies'
  whence := List.forall_mem_nil _
  remains := remains_unclaimed _ _

theorem hasSpread_of_mem {set : SelectionSet} {selection : Selection} {spread : FragmentSpread}
    (hmem : selection ∈ set.selections) (h : SelectionSet.HasSpread spread ⟨[selection], none⟩) :
    set.HasSpread spread := by
  cases h with
  | here h => exact .here (List.mem_singleton.mp h ▸ hmem)
  | within h hinner hs => exact .within (List.mem_singleton.mp h ▸ hmem) hinner hs

theorem mem_selections_of_mem_placed {set : SelectionSet} (h : entry ∈ set.placed place) :
    entry.2 ∈ set.selections ∧ place <:+ entry.1 := by
  obtain ⟨index, hplace, hselection⟩ := SelectionSet.mem_placed_iff.mp h
  exact ⟨List.mem_of_getElem? hselection, hplace ▸ List.suffix_cons index place⟩

theorem apart_placed (set : SelectionSet) (place : Place) :
    (set.placed place).Pairwise fun a b =>
      document.homeOf schema a.1 = document.homeOf schema b.1 →
        ∀ inner : Place, a.1 <:+ inner → ¬b.1 <:+ inner := by
  refine List.Pairwise.imp ?_ (set.pairwise_placed place)
  exact fun hapart _ => hapart

theorem Ready.inline {f : InlineFragment}
    (h : Ready schema document target ((place, .inline f) :: rest) unfollowed seen opened) :
    Ready schema document target (f.selectionSet.placed place) unfollowed seen opened := by
  have hinline : document.selectionAt? schema place = some (.inline f) :=
    h.selectionAt _ List.mem_cons_self
  have hhome : ∀ entry ∈ f.selectionSet.placed place,
      document.homeOf schema entry.1 = document.homeOf schema place :=
    fun entry hentry => Document.homeOf_of_mem_inline hinline hentry
  exact {
    selectionAt := fun entry hentry =>
      Document.selectionAt?_of_mem_placed (Document.setAt?_of_selectionAt? hinline rfl) hentry
    apart := apart_placed f.selectionSet place
    fresh := fun entry hentry seen hseen hsame hsuffix =>
      h.fresh _ List.mem_cons_self seen hseen (hsame.trans (hhome entry hentry))
        ((mem_selections_of_mem_placed hentry).2.trans hsuffix)
    ahead := fun name home fragment hsome hplaced => by
      obtain ⟨hentries, hseen⟩ := h.ahead name home fragment hsome hplaced
      exact ⟨fun entry hentry => hhome entry hentry ▸ hentries _ List.mem_cons_self, hseen⟩
    followed := h.followed
    opened := fun name hname => by
      obtain ⟨hnone, hspreads⟩ := h.opened name hname
      refine ⟨hnone, fun entry hentry spread hspread => hspreads _ List.mem_cons_self spread ?_⟩
      exact .within List.mem_cons_self rfl
        (hasSpread_of_mem (mem_selections_of_mem_placed hentry).1 hspread)
    remains := h.remains }

theorem Went.inline {f : InlineFragment}
    (hinline : document.selectionAt? schema place = some (.inline f))
    (h : Went schema document target (f.selectionSet.placed place) unfollowed seen opened nodes
      between) :
    Went schema document target [(place, .inline f)] unfollowed seen opened nodes between where
  followed := h.followed
  whence node hnode := by
    refine (h.whence node hnode).imp_right (Or.imp_left ?_)
    rintro ⟨entry, hentry, hhome, hsuffix⟩
    exact ⟨_, List.mem_singleton_self _,
      hhome.trans (Document.homeOf_of_mem_inline hinline hentry),
      (mem_selections_of_mem_placed hentry).2.trans hsuffix⟩
  remains := h.remains

section

variable {s : FragmentSpread} {fragment : FragmentDefinition}
  (hplaced : Assoc.get? document.placedTable s.name.text = some (home, fragment))
include hplaced

/-- A fragment that is followed for the first time is to be gone through, and it is open. -/
theorem Ready.spread
    (h : Ready schema document target ((place, .spread s) :: rest) unfollowed seen opened)
    (hfragment : Assoc.get? unfollowed s.name.text = some fragment) :
    Ready schema document target (fragment.selectionSet.placed home)
      (unclaimed unfollowed s.name.text) seen (s.name.text :: opened) := by
  have hhome : ∀ entry ∈ fragment.selectionSet.placed home,
      document.homeOf schema entry.1 = home :=
    fun entry hentry => Document.homeOf_of_mem_fragment hplaced hentry
  have hleads : ∀ entry ∈ fragment.selectionSet.placed home, ∀ spread,
      SelectionSet.HasSpread spread ⟨[entry.2], none⟩ →
        Leads document.fragmentTable s.name.text spread.name.text :=
    fun entry hentry spread hspread => ⟨fragment, spread, h.remains _ _ hfragment,
      hasSpread_of_mem (mem_selections_of_mem_placed hentry).1 hspread, rfl⟩
  have hsome := Option.isSome_of_eq_some hfragment
  have hother {name : String} (h : (Assoc.get? (unclaimed unfollowed s.name.text) name).isSome) :
      name ≠ s.name.text := by
    rintro rfl
    simp [get?_unclaimed] at h
  exact {
    selectionAt := fun entry hentry =>
      Document.selectionAt?_of_mem_placed (Document.setAt?_of_placedTable hplaced) hentry
    apart := apart_placed fragment.selectionSet home
    fresh := fun entry hentry place hplace hsame _ =>
      (h.ahead _ _ _ hsome hplaced).2 place hplace (hsame.trans (hhome entry hentry))
    ahead := fun name home' fragment' hsome' hplaced' => by
      refine ⟨fun entry hentry heq => hother hsome' ?_,
        (h.ahead name _ _ ((remains_unclaimed _ _).isSome hsome') hplaced').2⟩
      obtain rfl := (hhome entry hentry).symm.trans heq
      exact Document.placedTable_injective hplaced' hplaced
    followed := fun name home' fragment' hplaced' hnone hopened happlies => by
      obtain ⟨hname, hopened⟩ := not_or.mp (List.mem_cons.not.mp hopened)
      rw [get?_unclaimed, if_neg hname] at hnone
      exact h.followed name home' fragment' hplaced' hnone hopened happlies
    opened := List.forall_mem_cons.mpr ⟨
      ⟨by simp [get?_unclaimed], fun entry hentry spread hspread =>
        .single (hleads entry hentry spread hspread)⟩,
      fun name hname => by
        obtain ⟨hnone, hspreads⟩ := h.opened name hname
        refine ⟨(remains_unclaimed _ _).eq_none hnone, fun entry hentry spread hspread => ?_⟩
        exact (hspreads _ List.mem_cons_self s (.here (List.mem_singleton_self _))).tail
          (hleads entry hentry spread hspread)⟩
    remains := (remains_unclaimed _ _).trans h.remains }

theorem Went.spread (hfragment : Assoc.get? unfollowed s.name.text = some fragment)
    (hexpands : Expands document.placedTable target (fragment.selectionSet.placed home) nodes)
    (h : Went schema document target (fragment.selectionSet.placed home)
      (unclaimed unfollowed s.name.text) seen (s.name.text :: opened) nodes between) :
    Went schema document target [(place, .spread s)] unfollowed seen opened nodes between where
  followed := by
    intro name home' fragment' hplaced' hnone hopened happlies
    -- The fragment itself is not open any more; of the others nothing has changed.
    by_cases hname : name = s.name.text
    · subst hname
      obtain ⟨rfl, rfl⟩ := Prod.mk.inj (Option.some.inj (hplaced.symm.trans hplaced'))
      exact ⟨nodes, hexpands, fun node hnode =>
        List.mem_append_right _ (List.mem_map_of_mem hnode)⟩
    · refine h.followed name home' fragment' hplaced' hnone ?_ happlies
      exact fun hmem => (List.mem_cons.mp hmem).elim hname hopened
  whence node hnode := by
    have hremains := remains_unclaimed unfollowed s.name.text
    rcases h.whence node hnode with hseen | ⟨entry, hentry, hhome, -⟩ |
      ⟨name, home', fragment', hsome, hnone, hplaced'⟩
    · exact .inl hseen
    · refine .inr (.inr ⟨_, home, fragment, Option.isSome_of_eq_some hfragment, ?_, hplaced, ?_⟩)
      · exact h.remains.eq_none (by simp [get?_unclaimed])
      · exact hhome.trans (Document.homeOf_of_mem_fragment hplaced hentry)
    · exact .inr (.inr ⟨name, home', fragment', hremains.isSome hsome, hnone, hplaced'⟩)
  remains := h.remains.trans (remains_unclaimed _ _)

end

/-- Nothing new comes of a spread if its fragment has been followed before, or is unknown. -/
theorem exists_known {s : FragmentSpread} (hacyclic : Acyclic document.fragmentTable)
    (h : Ready schema document target ((place, .spread s) :: rest) unfollowed seen opened)
    (hnone : Assoc.get? unfollowed s.name.text = none) :
    ∃ nodes, Went schema document target [(place, .spread s)] unfollowed seen opened nodes
        unfollowed ∧ (∀ node ∈ nodes, node.place ∈ seen) ∧
      ∀ more, Expands document.placedTable target rest more →
        Expands document.placedTable target ((place, .spread s) :: rest) (nodes ++ more) := by
  have hnothing := went_nothing h
  cases htakes : takesPart target.schema target.bindings s.directives with
  | false => exact ⟨[], hnothing, List.forall_mem_nil _, fun _ => .leftOut (.skipped htakes)⟩
  | true =>
      cases hhome : Assoc.get? document.placedTable s.name.text with
      | none => exact ⟨[], hnothing, List.forall_mem_nil _, fun _ => .unknownSpread hhome⟩
      | some found =>
          obtain ⟨home, fragment⟩ := found
          cases happlies : applies target.schema target.objectName
              (some fragment.typeCondition) with
          | false =>
              exact ⟨[], hnothing, List.forall_mem_nil _, fun _ => .otherSpread hhome happlies⟩
          | true =>
              -- If it were open, the spread would lead back to it.
              have hclosed : s.name.text ∉ opened := fun hmem => hacyclic _ <|
                (h.opened _ hmem).2 _ List.mem_cons_self s (.here (List.mem_singleton_self _))
              obtain ⟨nodes, hexpands, hknown⟩ :=
                h.followed _ home fragment hhome hnone hclosed happlies
              exact ⟨nodes, ⟨h.followed.mono (List.subset_append_left _ _),
                fun node hnode => .inl (hknown node hnode), fun _ _ => id⟩, hknown,
                fun _ => .spread htakes hhome happlies hexpands⟩

/-! ## All selections -/

/-- Selections come to the fields that have been gathered, without repetitions. -/
def Matches (schema : Schema) (document : Document) (target : Target)
    (placed : List (Place × Selection)) (unfollowed : FragmentTable) (seen : List Place)
    (opened : List String) (fields : List Field) (left : FragmentTable) : Prop :=
  ∃ nodes, Expands document.placedTable target placed nodes ∧
    fields = (FieldNode.unseen seen nodes).map (·.field) ∧
    Went schema document target placed unfollowed seen opened nodes left

theorem Matches.cons {fields others : List Field}
    (hwent : Went schema document target [entry] unfollowed seen opened nodes between)
    (hexpands : ∀ more, Expands document.placedTable target rest more →
      Expands document.placedTable target (entry :: rest) (nodes ++ more))
    (hfields : fields = (FieldNode.unseen seen nodes).map (·.field))
    (hrest : Matches schema document target rest between (seen ++ nodes.map (·.place)) opened others
      left) :
    Matches schema document target (entry :: rest) unfollowed seen opened (fields ++ others)
      left := by
  obtain ⟨more, hmore, rfl, hwentRest⟩ := hrest
  refine ⟨nodes ++ more, hexpands more hmore, ?_, hwent.append hwentRest⟩
  rw [FieldNode.unseen_append, List.map_append, hfields]

/-- A selection of which nothing new comes. -/
theorem Matches.cons_known {others : List Field}
    (hwent : Went schema document target [entry] unfollowed seen opened nodes between)
    (hexpands : ∀ more, Expands document.placedTable target rest more →
      Expands document.placedTable target (entry :: rest) (nodes ++ more))
    (hknown : ∀ node ∈ nodes, node.place ∈ seen)
    (hrest : Matches schema document target rest between (seen ++ nodes.map (·.place)) opened others
      left) :
    Matches schema document target (entry :: rest) unfollowed seen opened others left := by
  have hfields : [] = (FieldNode.unseen seen nodes).map (·.field) := by
    rw [FieldNode.unseen_of_subset hknown, List.map_nil]
  exact List.nil_append others ▸ Matches.cons hwent hexpands hfields hrest

/-- What is gathered while every fragment is followed once is the expansion without repetitions. -/
theorem Gathers.matches {selections : List Selection} {fields : List Field}
    (hacyclic : Acyclic document.fragmentTable)
    (h : Gathers target selections unfollowed fields left)
    (hready : Ready schema document target placed unfollowed seen opened)
    (hplaced : placed.map (·.2) = selections) :
    Matches schema document target placed unfollowed seen opened fields left := by
  induction h generalizing placed seen opened with
  | nil =>
      obtain rfl := List.map_eq_nil_iff.mp hplaced
      exact ⟨[], .nil, rfl, hready.followed.mono (List.subset_append_left _ _),
        List.forall_mem_nil _, fun _ _ => id⟩
  | @field f _ _ _ _ htakes _ ih =>
      obtain ⟨⟨place, _⟩, rest, rfl, rfl, rfl⟩ := List.map_eq_cons_iff.mp hplaced
      have hwent := went_field hready
      have hnew : place ∉ seen := fun hmem =>
        hready.fresh _ List.mem_cons_self place hmem rfl (List.suffix_refl place)
      have hfields : [f] = (FieldNode.unseen seen [⟨place, f⟩]).map (·.field) := by
        rw [FieldNode.unseen_singleton hnew, List.map_singleton]
      exact Matches.cons hwent (fun _ => .field htakes) hfields (ih (hready.next hwent) rfl)
  | inline htakes happlies _ _ ihinner ihrest =>
      obtain ⟨⟨place, _⟩, rest, rfl, rfl, rfl⟩ := List.map_eq_cons_iff.mp hplaced
      obtain ⟨nodes, hexpands, hfields, hinner⟩ :=
        ihinner hready.inline (SelectionSet.map_snd_placed _ _)
      have hwent := hinner.inline (hready.selectionAt _ List.mem_cons_self)
      exact Matches.cons hwent (fun _ => .inline htakes happlies hexpands) hfields
        (ihrest (hready.next hwent) rfl)
  | spread htakes hfragment happlies _ _ ihinner ihrest =>
      obtain ⟨⟨place, _⟩, rest, rfl, rfl, rfl⟩ := List.map_eq_cons_iff.mp hplaced
      obtain ⟨home, hhome⟩ := exists_home hready.remains hfragment
      obtain ⟨nodes, hexpands, hfields, hinner⟩ :=
        ihinner (hready.spread hhome hfragment) (SelectionSet.map_snd_placed _ _)
      have hwent : Went schema document target [(place, _)] _ seen opened nodes _ :=
        hinner.spread hhome hfragment hexpands
      exact Matches.cons hwent (fun _ => .spread htakes hhome happlies hexpands) hfields
        (ihrest (hready.next hwent) rfl)
  | otherSpread _ hfragment happlies _ ih =>
      obtain ⟨⟨place, _⟩, rest, rfl, rfl, rfl⟩ := List.map_eq_cons_iff.mp hplaced
      obtain ⟨home, hhome⟩ := exists_home hready.remains hfragment
      have hwent := went_otherSpread hready hhome happlies
      exact Matches.cons_known hwent (fun _ => .otherSpread hhome happlies) (List.forall_mem_nil _)
        (ih (hready.next hwent) rfl)
  | @followed s _ _ _ _ hnone _ ih =>
      obtain ⟨⟨place, _⟩, rest, rfl, rfl, rfl⟩ := List.map_eq_cons_iff.mp hplaced
      obtain ⟨nodes, hwent, hknown, hexpands⟩ := exists_known hacyclic hready hnone
      exact Matches.cons_known hwent hexpands hknown (ih (hready.next hwent) rfl)
  | leftOut hout _ ih =>
      obtain ⟨⟨place, _⟩, rest, rfl, rfl, rfl⟩ := List.map_eq_cons_iff.mp hplaced
      have hwent := went_nothing hready
      exact Matches.cons_known hwent (fun _ => .leftOut hout) (List.forall_mem_nil _)
        (ih (hready.next hwent) rfl)

end Grouping

end GraphQL
