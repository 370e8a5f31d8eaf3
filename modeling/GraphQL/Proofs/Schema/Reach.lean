import Mathlib
import GraphQL.Proofs.Schema.Built

/-!
# The types within reach

`Schema.reachable` keeps all references that it still has to follow in one list, and goes on with
a smaller pool for every type that it takes.  What it is meant to do is said more simply: walk from
each reference in turn, into the definition that it leads to unless that has been visited, and back
to the next reference.  `Schema.walk` is this walk.  It never fails, and passes by a reference that
leads nowhere; but it keeps account of all references that it comes to, so the first one that leads
nowhere can be told afterwards (`Tour.outcome`, `reachable_eq_outcome`).

Which types a walk visits does not depend on the order in which it goes: they are those under the
names that can be reached by references from one definition to the next (`Schema.Reaches`,
`mem_visited_walk_iff`).
-/

namespace GraphQL.Schema

/-- A name that stands for a type, with the place where it is used. -/
abbrev Reference := String × SchemaSite

/-- The definition that a name leads to. -/
def leadsTo? (pool : List TypeDef) (name : String) : Option TypeDef := pool.find? (·.name = name)

/-- The names that references lead to, over any number of definitions. -/
inductive Reaches (pool : List TypeDef) (roots : List Reference) : String → Prop
  | root {reference : Reference} (h : reference ∈ roots) : Reaches pool roots reference.1
  | step {name : String} {t : TypeDef} {reference : Reference} (h : Reaches pool roots name)
      (ht : leadsTo? pool name = some t) (hmem : reference ∈ t.references) :
      Reaches pool roots reference.1

/-! ## The recursive walk -/

/-- What a walk comes to that sets out when some types have been visited. -/
structure Tour (before : List TypeDef) where
  /-- All references that are come to, in turn. -/
  followed : List Reference
  /-- The types that have been visited then, in the order of the first visits. -/
  visited : List TypeDef
  keeps : before <+: visited

/-- The definitions whose names have not been visited. -/
def unvisited (pool visited : List TypeDef) : List TypeDef :=
  pool.filter fun t => !visited.any (·.name = t.name)

/-- The definition that a name leads to for the first time. -/
def new? (pool visited : List TypeDef) (name : String) : Option TypeDef :=
  if visited.any (·.name = name) then none else leadsTo? pool name

section

variable {pool visited visited' : List TypeDef} {name : String} {t : TypeDef}

theorem name_of_leadsTo? (h : leadsTo? pool name = some t) : t.name = name := by
  simpa using List.find?_some h

theorem new?_eq_some_iff : new? pool visited name = some t ↔
    visited.any (·.name = name) = false ∧ leadsTo? pool name = some t := by
  rw [new?]
  split <;> simp_all

/-- Of the names of definitions that are left, one is lost with each visit. -/
theorem unvisited_append (hname : t.name = name) :
    unvisited pool (visited ++ [t]) = without (unvisited pool visited) name := by
  rw [unvisited, unvisited, without, List.filter_filter]
  refine List.filter_congr fun u _ => ?_
  simp [hname, Bool.and_comm, eq_comm]

theorem leadsTo?_unvisited : leadsTo? (unvisited pool visited) name = new? pool visited name := by
  rw [leadsTo?, unvisited, List.find?_filter, new?, leadsTo?]
  split
  · rename_i hseen
    refine List.find?_eq_none.mpr fun u _ => ?_
    simp only [Bool.not_eq_true', decide_eq_true_eq, not_and]
    rintro hnew rfl
    simp_all
  · rename_i hnew
    congr 1
    funext u
    by_cases hname : u.name = name
    · simp_all
    · simp [hname]

theorem length_unvisited_le (h : visited <+: visited') :
    (unvisited pool visited').length ≤ (unvisited pool visited).length := by
  refine (List.monotone_filter_right pool fun t ht => ?_).length_le
  simp only [Bool.not_eq_true', List.any_eq_false] at ht ⊢
  exact fun other hother => ht other (h.subset hother)

theorem length_unvisited_lt (h : new? pool visited name = some t) :
    (unvisited pool (visited ++ [t])).length < (unvisited pool visited).length := by
  rw [← leadsTo?_unvisited] at h
  rw [unvisited_append (name_of_leadsTo? h), without]
  refine List.length_filter_lt_length_iff_exists.mpr ⟨t, List.mem_of_find?_eq_some h, ?_⟩
  simp [name_of_leadsTo? h]

end

/-- Walks from each reference in turn: into the definition that it leads to, unless that has been
visited, and only then on to the next reference. -/
def walk (pool visited : List TypeDef) : List Reference → Tour visited
  | [] => ⟨[], visited, List.prefix_rfl⟩
  | reference :: rest =>
    match _hnew : new? pool visited reference.1 with
    | none =>
      let others := walk pool visited rest
      ⟨reference :: others.followed, others.visited, others.keeps⟩
    | some t =>
      let below := walk pool (visited ++ [t]) t.references
      let others := walk pool below.visited rest
      ⟨reference :: (below.followed ++ others.followed), others.visited,
        ((List.prefix_append _ _).trans below.keeps).trans others.keeps⟩
termination_by references => ((unvisited pool visited).length, references.length)
decreasing_by
  -- A reference that is passed by makes the list shorter, and a visit makes what is left less.
  · exact Prod.Lex.right _ (Nat.lt_succ_self _)
  · exact Prod.Lex.left _ _ (length_unvisited_lt _hnew)
  · exact Prod.Lex.left _ _
      ((length_unvisited_le below.keeps).trans_lt (length_unvisited_lt _hnew))

/-- The first reference that leads nowhere. -/
def dangling? (pool : List TypeDef) (references : List Reference) : Option Reference :=
  references.find? fun reference => (leadsTo? pool reference.1).isNone

/-- The first reference that leads nowhere, or else the types in the order of the first visits. -/
def Tour.outcome {before : List TypeDef} (pool : List TypeDef) (tour : Tour before) :
    Except SchemaFault (List TypeDef) :=
  match dangling? pool tour.followed with
  | some (name, site) => .error (.danglingReference name site)
  | none => .ok tour.visited

/-- What is done after a tour is done with the types that it has visited. -/
theorem Tour.outcome_bind_congr {before pool : List TypeDef} {α : Type} (tour : Tour before)
    {f g : List TypeDef → Except SchemaFault α} (h : f tour.visited = g tour.visited) :
    tour.outcome pool >>= f = tour.outcome pool >>= g := by
  unfold Tour.outcome
  split
  · rfl
  · exact h

section

variable {pool visited : List TypeDef} {reference : Reference} {rest : List Reference}
  {t : TypeDef}

theorem walk_cons_of_none (h : new? pool visited reference.1 = none) :
    walk pool visited (reference :: rest) =
      ⟨reference :: (walk pool visited rest).followed, (walk pool visited rest).visited,
        (walk pool visited rest).keeps⟩ := by
  rw [walk]
  split <;> simp_all

theorem followed_walk_cons (h : new? pool visited reference.1 = some t) :
    (walk pool visited (reference :: rest)).followed =
      reference :: ((walk pool (visited ++ [t]) t.references).followed ++
        (walk pool (walk pool (visited ++ [t]) t.references).visited rest).followed) := by
  rw [walk]
  split
  · simp_all
  · rename_i hnew
    obtain rfl := Option.some.inj (h.symm.trans hnew)
    rfl

theorem visited_walk_cons (h : new? pool visited reference.1 = some t) :
    (walk pool visited (reference :: rest)).visited =
      (walk pool (walk pool (visited ++ [t]) t.references).visited rest).visited := by
  rw [walk]
  split
  · simp_all
  · rename_i hnew
    obtain rfl := Option.some.inj (h.symm.trans hnew)
    rfl

end

/-! ## One list instead of a recursion -/

/-- The types are definitions that their names lead to. -/
def Drawn (pool visited : List TypeDef) : Prop := ∀ t ∈ visited, leadsTo? pool t.name = some t

section

variable {pool visited : List TypeDef} {references rest roots : List Reference}
  {reference : Reference} {name : String} {t : TypeDef}

theorem drawn_nil : Drawn pool [] := fun _ ht => absurd ht List.not_mem_nil

theorem Drawn.append (h : Drawn pool visited) (ht : leadsTo? pool name = some t) :
    Drawn pool (visited ++ [t]) := by
  intro u hu
  rcases List.mem_append.mp hu with hu | hu
  · exact h u hu
  · obtain rfl := List.mem_singleton.mp hu
    rwa [name_of_leadsTo? ht]

theorem Drawn.walk (h : Drawn pool visited) (references : List Reference) :
    Drawn pool (walk pool visited references).visited := by
  induction visited, references using walk.induct pool with
  | case1 visited => rwa [Schema.walk]
  | case2 visited reference rest hnone ih =>
      rw [walk_cons_of_none hnone]
      exact ih h
  | case3 visited reference rest t hnew below hbelow hrest =>
      rw [visited_walk_cons hnew]
      exact hrest (hbelow (h.append (new?_eq_some_iff.mp hnew).2))

/-- A reference to a type that has been visited is passed by. -/
theorem outcome_walk_of_seen (h : Drawn pool visited)
    (hseen : visited.any (·.name = reference.1)) :
    (walk pool visited (reference :: rest)).outcome pool =
      (walk pool visited rest).outcome pool := by
  obtain ⟨t, ht, hname⟩ := List.any_eq_true.mp hseen
  have hname : t.name = reference.1 := by simpa using hname
  have hleads : leadsTo? pool reference.1 = some t := hname ▸ h t ht
  have hdangling (references : List Reference) :
      dangling? pool (reference :: references) = dangling? pool references := by
    simp [dangling?, hleads]
  rw [walk_cons_of_none (by rw [new?, if_pos hseen])]
  simp only [Tour.outcome, hdangling]

theorem outcome_walk_of_leads_nowhere (h : leadsTo? pool reference.1 = none) :
    (walk pool visited (reference :: rest)).outcome pool =
      .error (.danglingReference reference.1 reference.2) := by
  have hdangling (references : List Reference) :
      dangling? pool (reference :: references) = some reference := by
    simp [dangling?, h]
  rw [walk_cons_of_none (by rw [new?, h, ite_self])]
  simp only [Tour.outcome, hdangling]

/-- What is below a new type comes before what is behind the reference to it. -/
theorem outcome_walk_of_new (h : new? pool visited reference.1 = some t) :
    (walk pool visited (reference :: rest)).outcome pool =
      (walk pool (visited ++ [t]) t.references).outcome pool >>= fun visited =>
        (walk pool visited rest).outcome pool := by
  have hdangling (references : List Reference) :
      dangling? pool (reference :: references) = dangling? pool references := by
    simp [dangling?, (new?_eq_some_iff.mp h).2]
  have happend (first second : List Reference) :
      dangling? pool (first ++ second) = (dangling? pool first).or (dangling? pool second) := by
    rw [dangling?, List.find?_append, dangling?, dangling?]
  simp only [Tour.outcome, followed_walk_cons h, visited_walk_cons h, hdangling, happend]
  cases dangling? pool (walk pool (visited ++ [t]) t.references).followed with
  | none => rfl
  | some dangling => rfl

theorem reachable_of_seen (h : visited.any (·.name = reference.1)) :
    reachable (unvisited pool visited) visited (reference :: rest) =
      reachable (unvisited pool visited) visited rest := by
  rw [reachable, if_pos h]

theorem reachable_of_leads_nowhere (hnew : visited.any (·.name = reference.1) = false)
    (h : leadsTo? pool reference.1 = none) :
    reachable (unvisited pool visited) visited (reference :: rest) =
      .error (.danglingReference reference.1 reference.2) := by
  have hfind : (unvisited pool visited).find? (·.name = reference.1) = none :=
    leadsTo?_unvisited.trans (by rw [new?, h, ite_self])
  rw [reachable, if_neg (Bool.eq_false_iff.mp hnew), hfind]

theorem reachable_of_new (h : new? pool visited reference.1 = some t) :
    reachable (unvisited pool visited) visited (reference :: rest) =
      reachable (unvisited pool (visited ++ [t])) (visited ++ [t]) (t.references ++ rest) := by
  have hfind : (unvisited pool visited).find? (·.name = reference.1) = some t :=
    leadsTo?_unvisited.trans h
  obtain ⟨hnew, ht⟩ := new?_eq_some_iff.mp h
  rw [reachable, if_neg (Bool.eq_false_iff.mp hnew), hfind, unvisited_append (name_of_leadsTo? ht)]

/-- The references in front of a list are followed as the walk follows them, and those behind are
left for later. -/
theorem reachable_append (h : Drawn pool visited) :
    reachable (unvisited pool visited) visited (references ++ rest) =
      (walk pool visited references).outcome pool >>= fun visited =>
        reachable (unvisited pool visited) visited rest := by
  induction visited, references using walk.induct pool generalizing rest with
  | case1 visited => rw [walk]; rfl
  | case2 visited reference others hnone ih =>
      rw [List.cons_append]
      by_cases hseen : visited.any (·.name = reference.1)
      · rw [reachable_of_seen hseen, outcome_walk_of_seen h hseen, ih h]
      · have hnowhere : leadsTo? pool reference.1 = none := by
          rwa [new?, if_neg hseen] at hnone
        rw [reachable_of_leads_nowhere (Bool.eq_false_iff.mpr hseen) hnowhere,
          outcome_walk_of_leads_nowhere hnowhere]
        rfl
  | case3 visited reference others t hnew below hbelow hothers =>
      have hdrawn := h.append (new?_eq_some_iff.mp hnew).2
      -- The references of the definition are put in front of the list, where the walk goes into
      -- them first.
      calc
        reachable (unvisited pool visited) visited (reference :: others ++ rest)
            = reachable (unvisited pool (visited ++ [t])) (visited ++ [t])
                (t.references ++ (others ++ rest)) := reachable_of_new hnew
        _ = below.outcome pool >>= fun visited =>
              reachable (unvisited pool visited) visited (others ++ rest) := hbelow hdrawn
        _ = below.outcome pool >>= fun visited =>
              (walk pool visited others).outcome pool >>= fun visited =>
                reachable (unvisited pool visited) visited rest :=
          below.outcome_bind_congr (hothers (hdrawn.walk t.references))
        _ = (walk pool visited (reference :: others)).outcome pool >>= fun visited =>
              reachable (unvisited pool visited) visited rest := by
          rw [outcome_walk_of_new hnew, bind_assoc]

/-- The types within reach are found as by a recursive walk, and so is the first reference that
leads nowhere. -/
theorem reachable_eq_outcome (pool : List TypeDef) (roots : List Reference) :
    reachable pool [] roots = (walk pool [] roots).outcome pool := by
  have hall : unvisited pool [] = pool := List.filter_eq_self.mpr fun _ _ => rfl
  have happend : reachable (unvisited pool []) [] (roots ++ []) =
      (walk pool [] roots).outcome pool >>= fun visited =>
        reachable (unvisited pool visited) visited [] := reachable_append drawn_nil
  rw [hall, List.append_nil] at happend
  rw [happend]
  calc
    ((walk pool [] roots).outcome pool >>= fun visited =>
        reachable (unvisited pool visited) visited [])
        = (walk pool [] roots).outcome pool >>= pure :=
          (walk pool [] roots).outcome_bind_congr (by rw [reachable]; rfl)
    _ = (walk pool [] roots).outcome pool := bind_pure _

end

/-! ## What a walk comes to -/

section

variable {pool visited : List TypeDef} {references roots : List Reference}
  {reference : Reference} {name : String} {t : TypeDef}

theorem Reaches.mono {more : List Reference} (h : Reaches pool roots name) (hsub : roots ⊆ more) :
    Reaches pool more name := by
  induction h with
  | root h => exact .root (hsub h)
  | step _ ht hmem ih => exact .step ih ht hmem

/-- What is reached from a definition is reached from a name that leads to it. -/
theorem Reaches.of_references {below : String} (h : Reaches pool roots name)
    (ht : leadsTo? pool name = some t) (hbelow : Reaches pool t.references below) :
    Reaches pool roots below := by
  induction hbelow with
  | root hmem => exact .step h ht hmem
  | step _ hu hmem ih => exact .step ih hu hmem

/-- A walk follows each reference that it is given. -/
theorem subset_followed_walk (pool visited : List TypeDef) (references : List Reference) :
    references ⊆ (walk pool visited references).followed := by
  induction visited, references using walk.induct pool with
  | case1 visited => exact List.nil_subset _
  | case2 visited reference rest hnone ih =>
      rw [walk_cons_of_none hnone]
      exact List.cons_subset_cons _ ih
  | case3 visited reference rest t hnew below hbelow hrest =>
      rw [followed_walk_cons hnew]
      exact List.cons_subset_cons _ (List.Subset.trans hrest (List.subset_append_right _ _))

/-- A walk visits what the references lead to that it follows. -/
theorem mem_visited_of_mem_followed (h : Drawn pool visited)
    (hreference : reference ∈ (walk pool visited references).followed)
    (ht : leadsTo? pool reference.1 = some t) : t ∈ (walk pool visited references).visited := by
  induction visited, references using walk.induct pool with
  | case1 visited =>
      rw [walk] at hreference
      cases hreference
  | case2 visited first rest hnone ih =>
      rw [walk_cons_of_none hnone] at hreference ⊢
      rcases List.mem_cons.mp hreference with rfl | hrest
      · -- The reference leads somewhere, so it must have been visited before.
        obtain ⟨u, hu, hname⟩ : ∃ u ∈ visited, u.name = reference.1 := by
          by_contra hnot
          rw [new?, if_neg (by simpa using hnot), ht] at hnone
          cases hnone
        obtain rfl : u = t := Option.some.inj ((hname ▸ h u hu).symm.trans ht)
        exact (walk pool visited rest).keeps.subset hu
      · exact ih h hrest
  | case3 visited first rest u hnew below hbelow hrest =>
      have hdrawn := h.append (new?_eq_some_iff.mp hnew).2
      rw [followed_walk_cons hnew] at hreference
      rw [visited_walk_cons hnew]
      rcases List.mem_cons.mp hreference with rfl | hreference
      · obtain rfl : u = t := Option.some.inj ((new?_eq_some_iff.mp hnew).2.symm.trans ht)
        have hmem : u ∈ visited ++ [u] := List.mem_append_right _ (List.mem_singleton_self u)
        exact (walk pool below.visited rest).keeps.subset (below.keeps.subset hmem)
      rcases List.mem_append.mp hreference with hinside | hbehind
      · exact (walk pool below.visited rest).keeps.subset (hbelow hdrawn hinside)
      · exact hrest (hdrawn.walk u.references) hbehind

/-- A walk follows the references of each type that it visits for the first time. -/
theorem mem_followed_of_mem_references (ht : t ∈ (walk pool visited references).visited)
    (hnew : t ∉ visited) (hreference : reference ∈ t.references) :
    reference ∈ (walk pool visited references).followed := by
  induction visited, references using walk.induct pool with
  | case1 visited =>
      rw [walk] at ht
      exact absurd ht hnew
  | case2 visited first rest hnone ih =>
      rw [walk_cons_of_none hnone] at ht ⊢
      exact List.mem_cons_of_mem _ (ih ht hnew)
  | case3 visited first rest u hleads below hbelow hrest =>
      rw [visited_walk_cons hleads] at ht
      rw [followed_walk_cons hleads]
      refine List.mem_cons_of_mem _ (List.mem_append.mpr ?_)
      -- The first visit is either within the definition or after it.
      by_cases hmem : t ∈ below.visited
      · left
        by_cases hsame : t = u
        · subst hsame
          exact subset_followed_walk pool _ _ hreference
        · refine hbelow hmem fun hbefore => ?_
          rcases List.mem_append.mp hbefore with hbefore | hbefore
          · exact hnew hbefore
          · exact hsame (List.mem_singleton.mp hbefore)
      · exact .inr (hrest ht hmem)

/-- A walk follows only what can be reached. -/
theorem reaches_of_mem_followed (h : reference ∈ (walk pool visited references).followed) :
    Reaches pool references reference.1 := by
  induction visited, references using walk.induct pool with
  | case1 visited =>
      rw [walk] at h
      cases h
  | case2 visited first rest hnone ih =>
      rw [walk_cons_of_none hnone] at h
      rcases List.mem_cons.mp h with rfl | h
      · exact .root List.mem_cons_self
      · exact (ih h).mono (List.subset_cons_self _ _)
  | case3 visited first rest t hnew below hbelow hrest =>
      have hfirst : Reaches pool (first :: rest) first.1 := .root List.mem_cons_self
      rw [followed_walk_cons hnew] at h
      rcases List.mem_cons.mp h with rfl | h
      · exact hfirst
      rcases List.mem_append.mp h with h | h
      · exact hfirst.of_references (new?_eq_some_iff.mp hnew).2 (hbelow h)
      · exact (hrest h).mono (List.subset_cons_self _ _)

/-- A walk visits only what it comes to. -/
theorem exists_followed_of_mem_visited (ht : t ∈ (walk pool visited references).visited)
    (hnew : t ∉ visited) :
    ∃ site, (t.name, site) ∈ (walk pool visited references).followed := by
  induction visited, references using walk.induct pool with
  | case1 visited =>
      rw [walk] at ht
      exact absurd ht hnew
  | case2 visited first rest hnone ih =>
      rw [walk_cons_of_none hnone] at ht ⊢
      obtain ⟨site, hsite⟩ := ih ht hnew
      exact ⟨site, List.mem_cons_of_mem _ hsite⟩
  | case3 visited first rest u hleads below hbelow hrest =>
      rw [visited_walk_cons hleads] at ht
      rw [followed_walk_cons hleads]
      by_cases hsame : t = u
      · subst hsame
        refine ⟨first.2, ?_⟩
        rw [name_of_leadsTo? (new?_eq_some_iff.mp hleads).2]
        exact List.mem_cons_self
      by_cases hmem : t ∈ below.visited
      · obtain ⟨site, hsite⟩ := hbelow hmem (by simp [hnew, hsame])
        exact ⟨site, List.mem_cons_of_mem _ (List.mem_append_left _ hsite)⟩
      · obtain ⟨site, hsite⟩ := hrest ht hmem
        exact ⟨site, List.mem_cons_of_mem _ (List.mem_append_right _ hsite)⟩

/-- No name is visited twice. -/
theorem nodup_visited_walk (h : (visited.map (·.name)).Nodup) (references : List Reference) :
    ((walk pool visited references).visited.map (·.name)).Nodup := by
  induction visited, references using walk.induct pool with
  | case1 visited => rwa [walk]
  | case2 visited reference rest hnone ih =>
      rw [walk_cons_of_none hnone]
      exact ih h
  | case3 visited reference rest t hnew below hbelow hrest =>
      rw [visited_walk_cons hnew]
      refine hrest (hbelow ?_)
      obtain ⟨hunseen, ht⟩ := new?_eq_some_iff.mp hnew
      rw [List.map_append, List.map_singleton]
      refine h.append (List.nodup_singleton _) ?_
      rw [name_of_leadsTo? ht]
      simpa using hunseen

end

/-! ## All that is within reach -/

section

variable {pool : List TypeDef} {roots : List Reference} {name : String} {t : TypeDef}

theorem drawn_walk (pool : List TypeDef) (roots : List Reference) :
    Drawn pool (walk pool [] roots).visited :=
  drawn_nil.walk roots

/-- A walk comes to every name that can be reached. -/
theorem exists_followed_of_reaches (h : Reaches pool roots name) :
    ∃ site, (name, site) ∈ (walk pool [] roots).followed := by
  induction h with
  | @root reference h => exact ⟨reference.2, subset_followed_walk pool [] roots h⟩
  | @step name t reference _ ht hmem ih =>
      obtain ⟨site, hsite⟩ := ih
      have hvisited := mem_visited_of_mem_followed drawn_nil hsite ht
      exact ⟨reference.2, mem_followed_of_mem_references hvisited List.not_mem_nil hmem⟩

/-- A walk visits the definitions that reached names lead to, and no others. -/
theorem mem_visited_walk_iff : t ∈ (walk pool [] roots).visited ↔
    Reaches pool roots t.name ∧ leadsTo? pool t.name = some t := by
  constructor
  · intro h
    obtain ⟨site, hsite⟩ := exists_followed_of_mem_visited h List.not_mem_nil
    exact ⟨reaches_of_mem_followed hsite, drawn_walk pool roots t h⟩
  · rintro ⟨hreaches, ht⟩
    obtain ⟨site, hsite⟩ := exists_followed_of_reaches hreaches
    exact mem_visited_of_mem_followed drawn_nil hsite ht

/-- A walk comes to a reference that leads nowhere if some name can be reached that leads
nowhere. -/
theorem isSome_dangling?_iff : (dangling? pool (walk pool [] roots).followed).isSome ↔
    ∃ name, Reaches pool roots name ∧ leadsTo? pool name = none := by
  rw [dangling?, List.find?_isSome]
  constructor
  · rintro ⟨reference, hmem, hnone⟩
    exact ⟨reference.1, reaches_of_mem_followed hmem, Option.isNone_iff_eq_none.mp hnone⟩
  · rintro ⟨name, hreaches, hnone⟩
    obtain ⟨site, hsite⟩ := exists_followed_of_reaches hreaches
    exact ⟨(name, site), hsite, Option.isNone_iff_eq_none.mpr hnone⟩

/-- Collecting types is the same as walking from each root in turn.  It always comes to an end: with
the first reference that the walk cannot follow, and then some name can be reached that is not in
the pool, or else with the definitions of the names that can be reached, each of them once and in
the order in which the walk first visits them. -/
theorem reachable_follows_walk (pool : List TypeDef) (roots : List Reference) :
    reachable pool [] roots = (walk pool [] roots).outcome pool ∧
      ((∃ fault, reachable pool [] roots = .error fault) ↔
        ∃ name, Reaches pool roots name ∧ leadsTo? pool name = none) ∧
      ((walk pool [] roots).visited.map (·.name)).Nodup ∧
      ∀ t, t ∈ (walk pool [] roots).visited ↔
        Reaches pool roots t.name ∧ leadsTo? pool t.name = some t := by
  have hnodup : (([] : List TypeDef).map (·.name)).Nodup := List.nodup_nil
  refine ⟨reachable_eq_outcome pool roots, ?_, nodup_visited_walk hnodup roots,
    fun t => mem_visited_walk_iff⟩
  rw [reachable_eq_outcome, ← isSome_dangling?_iff, Tour.outcome]
  cases dangling? pool (walk pool [] roots).followed with
  | none => simp
  | some dangling => simp

end

end GraphQL.Schema
