import Mathlib
import GraphQL.Proofs.Document.Slots
import GraphQL.Proofs.Traversal.Lanes

/-!
# Histories of visits

A history lists the calls of a visitor in the order they were made, each with the way to the node
(`Hook`).  Four things can be asked of it.  Are the answers those of the visitor (`Answers`)?  Are
the calls made in the right order (`Tour`)?  Is a node that is left what has become of it by the
changes below (`History.LeavesRewritten`)?  And does it put a node where it cannot stand
(`History.Misplaces`)?

The calls at a child and below it are a history of their own (`History.under`).  What is replaced
below a child is told by that part alone, since no two children have the same slot and index
(`Within.below_under_append`, `below_append_of_ne`); so what is asked of a history can be asked of
its parts.

Some nodes of a tree are replaced when they are entered, others when they are left.  `Rewrites` says
what becomes of the tree: a node that took the place of another on entering is rewritten below in
its turn, a node that takes a place on leaving is put there as it is, and all else stays the same.
There is only one such tree (`Rewrites.unique`).

A walk collects the changes of the children of a node and makes them one after the other.  When all
fit, the node has its new children and nothing else has changed; when not, one change has a node of
a kind that its slot cannot hold (`applyEdits_spec`).
-/

namespace GraphQL

/-! ## What replacements make of a tree -/

/-- A node `node'` is `node` with other children, as many as before. -/
def Node.HasChildren (node : Node) (children : Slot → ℕ → Node) (node' : Node) : Prop :=
  node'.rest = node.rest ∧
    ∀ slot, node'.children slot = (List.range (node.children slot).length).map (children slot)

namespace Node.HasChildren

variable {node a b : Node} {children children' : Slot → ℕ → Node}

theorem congr (ha : node.HasChildren children a)
    (h : ∀ slot index child, (node.children slot)[index]? = some child →
      children slot index = children' slot index) : node.HasChildren children' a := by
  refine ⟨ha.1, fun slot => (ha.2 slot).trans (List.map_congr_left fun index hindex => ?_)⟩
  exact h slot index _ (List.getElem?_eq_getElem (List.mem_range.mp hindex))

theorem self (h : ∀ slot index child, (node.children slot)[index]? = some child →
    children slot index = child) : node.HasChildren children node := by
  refine ⟨rfl, fun slot => List.ext_getElem (by simp) fun index hlt _ => ?_⟩
  rw [List.getElem_map, List.getElem_range]
  exact (h slot index _ (List.getElem?_eq_getElem hlt)).symm

theorem unique (ha : node.HasChildren children a) (hb : node.HasChildren children b) : a = b :=
  ext_of_children (ha.1.trans hb.1.symm) fun slot _ => (ha.2 slot).trans (hb.2 slot).symm

theorem kind_eq (h : node.HasChildren children a) : a.kind = node.kind := by
  rw [← kind_rest a, h.1, kind_rest]

end Node.HasChildren

namespace Traversal

/-! ## Changes below a node -/

/-- The way from the root of a tree to a node in it. -/
abbrev Route := List (Slot × ℕ)

/-- The nodes that take the place of those that are entered, and of those that are left, by the
ways to them. -/
abbrev Replacements := Phase → Route → Option Node

namespace Replacements

/-- The replacements at a node and below it. -/
def below (R : Replacements) (route : Route) : Replacements :=
  fun phase rest => R phase (route ++ rest)

/-- What takes the place of the root itself: a replacement on leaving wins. -/
def last? (R : Replacements) : Option Node := (R .leave []).or (R .enter [])

end Replacements

/-- What replacements make of a node: what it is when it has been entered and all below it has
been changed, and what is in its place in the end.  The children are those of the node that took
its place on entering, if any. -/
inductive Rewrites : Replacements → Node → Node → Node → Prop
  | untouched {R : Replacements} {node : Node} (h : ∀ phase route, R phase route = none) :
    Rewrites R node node node
  | walked {R : Replacements} {node seen : Node} (seens finals : Slot → ℕ → Node)
    (hchildren : ∀ slot index child,
      (((R .enter []).getD node).children slot)[index]? = some child →
        Rewrites (R.below [(slot, index)]) child (seens slot index) (finals slot index))
    (hseen : ((R .enter []).getD node).HasChildren finals seen) :
    Rewrites R node seen ((R .leave []).getD seen)

namespace Rewrites

variable {R : Replacements} {node seen seen' final final' : Node}

/-- Where nothing is replaced, nothing changes. -/
theorem eq_of_untouched (h : Rewrites R node seen final)
    (hnone : ∀ phase route, R phase route = none) : seen = node ∧ final = node := by
  induction h with
  | untouched => exact ⟨rfl, rfl⟩
  | @walked R node seen seens finals hchildren hseen ih =>
      rw [hnone, Option.getD_none] at hchildren hseen ih
      have hself : node.HasChildren finals node :=
        .self fun slot index child hchild => (ih slot index child hchild fun _ _ => hnone _ _).2
      rw [hnone, Option.getD_none]
      exact ⟨hseen.unique hself, hseen.unique hself⟩

/-- Replacements make only one thing of a node. -/
theorem unique (h : Rewrites R node seen final) (h' : Rewrites R node seen' final') :
    seen = seen' ∧ final = final' := by
  induction h generalizing seen' final' with
  | untouched hnone =>
      obtain ⟨rfl, rfl⟩ := h'.eq_of_untouched hnone
      exact ⟨rfl, rfl⟩
  | @walked R node seen seens finals hchildren hseen ih =>
      cases h' with
      | untouched hnone => exact (walked seens finals hchildren hseen).eq_of_untouched hnone
      | walked seens' finals' hchildren' hseen' =>
          have hfinals := hseen.congr fun slot index child hchild =>
            (ih slot index child hchild (hchildren' slot index child hchild)).2
          obtain rfl := hfinals.unique hseen'
          exact ⟨rfl, rfl⟩

/-- In the end a node is of the kind of what took its place, or else of its own. -/
theorem kind_eq (h : Rewrites R node seen final) : final.kind = (R.last?.getD node).kind := by
  cases h with
  | untouched hnone => rw [Replacements.last?, hnone, hnone]; rfl
  | walked seens finals hchildren hseen =>
      have hkind := hseen.kind_eq
      rw [Replacements.last?]
      cases R .leave [] with
      | some replacement => rfl
      | none =>
          cases hentered : R .enter [] with
          | some replacement => rw [hentered] at hkind; exact hkind
          | none => rw [hentered] at hkind; exact hkind

end Rewrites

end Traversal

/-! ## Histories -/

open Traversal (Phase)

namespace Visitor

variable {σ : Type}

/-- The call of a visitor in a phase. -/
def call (visitor : Visitor σ) : Phase → Node → StateM σ VisitAction
  | .enter => visitor.enter
  | .leave => visitor.leave

end Visitor

/-- The node whose children are walked after an answer on entering a node, if any. -/
def VisitAction.opened? (node : Node) : VisitAction → Option Node
  | .proceed => some node
  | .replace replacement => some replacement
  | .skip | .stop => none

namespace Traversal

/-- A call of a visitor: when, at which node and what it answered. -/
structure Hook where
  phase : Phase
  route : Route
  node : Node
  answer : VisitAction

/-- The calls of a visitor in the order they were made. -/
abbrev History := List Hook

namespace History

/-- The calls at a child and below it, as seen from its parent. -/
def under (slot : Slot) (index : ℕ) (history : History) : History :=
  history.map fun hook => { hook with route := (slot, index) :: hook.route }

/-- The replacements that a visitor has answered with. -/
def replacements (history : History) : Replacements := fun phase route =>
  history.findSome? fun hook =>
    if hook.phase = phase ∧ hook.route = route then Parallel.replacement? hook.answer else none

/-- The calls at a node: on entering it, below it, and on leaving it, if it is left. -/
def around (node : Node) (action : VisitAction) (below : History)
    (leaving : Option (Node × VisitAction)) : History :=
  ⟨.enter, [], node, action⟩ ::
    (below ++ leaving.toList.map fun (seen, answer) => ⟨.leave, [], seen, answer⟩)

/-- Nodes are left as they are when all below them has been changed. -/
def LeavesRewritten (history : History) : Prop :=
  ∀ route seen answer, ⟨.leave, route, seen, answer⟩ ∈ history →
    ∃ node action final, ⟨.enter, route, node, action⟩ ∈ history ∧
      Rewrites (history.replacements.below route) node seen final

/-- What finally takes the place of a child is of a kind that cannot stand there. -/
def Misplaces (history : History) (misfit : Misfit) : Prop :=
  ∃ route node action base slot index replacement,
    ⟨.enter, route, node, action⟩ ∈ history ∧ action.opened? node = some base ∧
    (history.replacements.below (route ++ [(slot, index)])).last? = some replacement ∧
    ¬base.kind.CanHold slot replacement.kind ∧
    misfit = ⟨replacement.kind, slot, base.kind⟩

end History

/-- The answers of a history are those of the visitor, each in the state that the ones before have
left. -/
def Answers {σ : Type} (visitor : Visitor σ) : σ → History → σ → Prop
  | s, [], s' => s' = s
  | s, hook :: rest, s' =>
    ∃ t, visitor.call hook.phase hook.node s = (hook.answer, t) ∧ Answers visitor t rest s'

/-- How a walk ends: it comes to its end, a visitor stops it, or a node does not fit. -/
inductive Ending where
  | through | stopped | misplaced

/-- How the walk of a node ends by what is answered on leaving it. -/
def Ending.after : VisitAction → Ending
  | .stop => .stopped
  | _ => .through

mutual

/-- The calls on a walk of a node at a level, and how the walk ends.  The node is entered, then its
children are walked, or those of the node that takes its place, and then it is left.  Nodes at the
level `limit` are passed over. -/
inductive Tour (limit : ℕ∞) : (level : ℕ) → Node → History → Ending → Prop
  | deep {level : ℕ} {node : Node} (h : limit ≤ level) : Tour limit level node [] .through
  | skipped {level : ℕ} {node : Node} (h : level < limit) :
    Tour limit level node (.around node .skip [] none) .through
  | stopped {level : ℕ} {node : Node} (h : level < limit) :
    Tour limit level node (.around node .stop [] none) .stopped
  | left {level : ℕ} {node base seen : Node} {action answer : VisitAction} {below : History}
    (h : level < limit) (hopened : action.opened? node = some base)
    (hbelow : TourChildren limit (level + 1) base.placedChildren below .through) :
    Tour limit level node (.around node action below (some (seen, answer))) (.after answer)
  | ended {level : ℕ} {node base : Node} {action : VisitAction} {below : History}
    (h : level < limit) (hopened : action.opened? node = some base)
    (hbelow : TourChildren limit (level + 1) base.placedChildren below .stopped) :
    Tour limit level node (.around node action below none) .stopped
  | misplaced {level : ℕ} {node base : Node} {action : VisitAction} {below : History}
    {ending : Ending} (h : level < limit) (hopened : action.opened? node = some base)
    (hbelow : TourChildren limit (level + 1) base.placedChildren below ending) :
    Tour limit level node (.around node action below none) .misplaced

/-- The calls on a walk of children in turn, and how the walk ends.  If the walk does not get
through a child, the others are left out. -/
inductive TourChildren (limit : ℕ∞) :
    (level : ℕ) → List (Slot × ℕ × Node) → History → Ending → Prop
  | nil {level : ℕ} : TourChildren limit level [] [] .through
  | cons {level index : ℕ} {slot : Slot} {child : Node} {rest : List (Slot × ℕ × Node)}
    {history more : History} {ending : Ending} (h : Tour limit level child history .through)
    (hrest : TourChildren limit level rest more ending) :
    TourChildren limit level ((slot, index, child) :: rest) (history.under slot index ++ more)
      ending
  | last {level index : ℕ} {slot : Slot} {child : Node} {rest : List (Slot × ℕ × Node)}
    {history : History} {ending : Ending} (h : Tour limit level child history ending)
    (hending : ending ≠ .through) :
    TourChildren limit level ((slot, index, child) :: rest) (history.under slot index) ending

end

/-! ## Histories -/

section

variable {σ : Type} {visitor : Visitor σ} {s t s' : σ} {history more : History} {slot : Slot}
  {index : ℕ} {phase : Phase} {route : Route}

theorem Answers.append (h : Answers visitor s history t) (h' : Answers visitor t more s') :
    Answers visitor s (history ++ more) s' := by
  induction history generalizing s with
  | nil =>
      obtain rfl : t = s := h
      exact h'
  | cons hook rest ih =>
      obtain ⟨u, hcall, hrest⟩ := h
      exact ⟨u, hcall, ih hrest⟩

theorem Answers.under (h : Answers visitor s history s') (slot : Slot) (index : ℕ) :
    Answers visitor s (history.under slot index) s' := by
  induction history generalizing s with
  | nil => exact h
  | cons hook rest ih =>
      obtain ⟨u, hcall, hrest⟩ := h
      exact ⟨u, hcall, ih hrest⟩

namespace History

theorem mem_under {hook : Hook} : hook ∈ history.under slot index ↔
    ∃ route, hook.route = (slot, index) :: route ∧
      ⟨hook.phase, route, hook.node, hook.answer⟩ ∈ history := by
  constructor
  · intro h
    obtain ⟨hook, hmem, rfl⟩ := List.mem_map.mp h
    exact ⟨hook.route, rfl, hmem⟩
  · rintro ⟨route, hroute, hmem⟩
    refine List.mem_map.mpr ⟨_, hmem, ?_⟩
    cases hook
    cases hroute
    rfl

theorem forall_mem_under {P : VisitAction → Prop} :
    (∀ hook ∈ history.under slot index, P hook.answer) ↔ ∀ hook ∈ history, P hook.answer :=
  List.forall_mem_map

theorem replacements_nil : replacements [] phase route = none := rfl

theorem replacements_append : (history ++ more).replacements phase route =
    (history.replacements phase route).or (more.replacements phase route) :=
  List.findSome?_append

theorem replacements_cons (hook : Hook) : replacements (hook :: history) phase route =
    (replacements [hook] phase route).or (history.replacements phase route) := by
  rw [← List.singleton_append, replacements_append]

theorem replacements_eq_none (h : ∀ hook ∈ history, hook.route ≠ route) :
    history.replacements phase route = none :=
  List.findSome?_eq_none_iff.mpr fun hook hhook => if_neg fun heq => h hook hhook heq.2

theorem replacements_under :
    (history.under slot index).replacements phase ((slot, index) :: route) =
      history.replacements phase route := by
  rw [replacements, under, List.findSome?_map]
  simp [replacements, Function.comp_def]

theorem forall_replacements_eq_none_iff :
    (∀ phase route, history.replacements phase route = none) ↔
      ∀ hook ∈ history, ¬hook.answer.Replaces := by
  constructor
  · intro h hook hhook hreplaces
    have hnone := List.findSome?_eq_none_iff.mp (h hook.phase hook.route) hook hhook
    rw [if_pos ⟨rfl, rfl⟩] at hnone
    cases hanswer : hook.answer with
    | replace replacement => rw [hanswer] at hnone; cases hnone
    | proceed | skip | stop => rw [hanswer] at hreplaces; exact hreplaces
  · intro h phase route
    refine List.findSome?_eq_none_iff.mpr fun hook hhook => ?_
    have hkeeps := h hook hhook
    split
    · cases hanswer : hook.answer with
      | replace replacement =>
          rw [hanswer] at hkeeps
          exact absurd trivial hkeeps
      | proceed | skip | stop => rfl
    · rfl

/-- The calls are at some of the children of a node and below them. -/
def Within (history : History) (children : List (Slot × ℕ × Node)) : Prop :=
  ∀ hook ∈ history, ∃ child ∈ children, ∃ route, hook.route = (child.1, child.2.1) :: route

section

variable {node base : Node} {children : List (Slot × ℕ × Node)} {misfit : Misfit}

theorem within_nil : Within [] children := fun _ h => absurd h List.not_mem_nil

theorem within_under {child : Node} :
    (history.under slot index).Within ((slot, index, child) :: children) := by
  intro hook hhook
  obtain ⟨route, hroute, -⟩ := mem_under.mp hhook
  exact ⟨_, List.mem_cons_self, route, hroute⟩

theorem Within.append (h : history.Within children) (hmore : more.Within children) :
    (history ++ more).Within children := by
  intro hook hhook
  exact (List.mem_append.mp hhook).elim (h hook) (hmore hook)

theorem Within.cons (h : history.Within children) (child : Slot × ℕ × Node) :
    history.Within (child :: children) := by
  intro hook hhook
  obtain ⟨other, hother, hroute⟩ := h hook hhook
  exact ⟨other, List.mem_cons_of_mem _ hother, hroute⟩

theorem leavesRewritten_nil : LeavesRewritten [] :=
  fun _ _ _ h => absurd h List.not_mem_nil

theorem not_misplaces_nil : ¬Misplaces [] misfit := by
  rintro ⟨_, _, _, _, _, _, _, hmem, _⟩
  exact List.not_mem_nil hmem

theorem Within.replacements_under_append (hwithin : more.Within children)
    (hapart : ∀ child ∈ children, (child.1, child.2.1) ≠ (slot, index)) :
    (history.under slot index ++ more).replacements phase ((slot, index) :: route) =
      history.replacements phase route := by
  have hmore : more.replacements phase ((slot, index) :: route) = none := by
    refine replacements_eq_none fun hook hhook heq => ?_
    obtain ⟨child, hchild, tail, hroute⟩ := hwithin hook hhook
    exact hapart child hchild (List.cons.inj (hroute.symm.trans heq)).1
  rw [replacements_append, hmore, Option.or_none, replacements_under]

theorem replacements_append_of_ne {key : Slot × ℕ} (hne : key ≠ (slot, index)) :
    (history.under slot index ++ more).replacements phase (key :: route) =
      more.replacements phase (key :: route) := by
  have hunder : (history.under slot index).replacements phase (key :: route) = none := by
    refine replacements_eq_none fun hook hhook heq => ?_
    obtain ⟨tail, hroute, -⟩ := mem_under.mp hhook
    exact hne (List.cons.inj (heq.symm.trans hroute)).1
  rw [replacements_append, hunder, Option.none_or]

theorem Within.below_under_append (hwithin : more.Within children)
    (hapart : ∀ child ∈ children, (child.1, child.2.1) ≠ (slot, index)) :
    (history.under slot index ++ more).replacements.below ((slot, index) :: route) =
      history.replacements.below route :=
  funext fun _ => funext fun _ => hwithin.replacements_under_append hapart

theorem below_append_of_ne {key : Slot × ℕ} (hne : key ≠ (slot, index)) :
    (history.under slot index ++ more).replacements.below (key :: route) =
      more.replacements.below (key :: route) :=
  funext fun _ => funext fun _ => replacements_append_of_ne hne

theorem LeavesRewritten.append (h : history.LeavesRewritten) (hmore : more.LeavesRewritten)
    (hwithin : more.Within children)
    (hapart : ∀ child ∈ children, (child.1, child.2.1) ≠ (slot, index)) :
    (history.under slot index ++ more).LeavesRewritten := by
  intro route seen answer hmem
  rcases List.mem_append.mp hmem with hmem | hmem
  · obtain ⟨route, rfl, hmem⟩ := mem_under.mp hmem
    obtain ⟨node, action, final, henter, hrewrites⟩ := h route seen answer hmem
    refine ⟨node, action, final, List.mem_append_left _ (mem_under.mpr ⟨route, rfl, henter⟩), ?_⟩
    rwa [hwithin.below_under_append hapart]
  · obtain ⟨node, action, final, henter, hrewrites⟩ := hmore route seen answer hmem
    obtain ⟨child, hchild, tail, hroute⟩ := hwithin _ hmem
    obtain rfl : route = _ := hroute
    refine ⟨node, action, final, List.mem_append_right _ henter, ?_⟩
    rwa [below_append_of_ne (hapart child hchild)]

theorem misplaces_append_iff (hwithin : more.Within children)
    (hapart : ∀ child ∈ children, (child.1, child.2.1) ≠ (slot, index)) :
    (history.under slot index ++ more).Misplaces misfit ↔
      history.Misplaces misfit ∨ more.Misplaces misfit := by
  constructor
  · rintro ⟨route, node, action, base, slot', index', replacement, hmem, hopened, hlast, hmisfit⟩
    rcases List.mem_append.mp hmem with hmem | hmem
    · obtain ⟨route, rfl, hmem⟩ := mem_under.mp hmem
      rw [List.cons_append, hwithin.below_under_append hapart] at hlast
      exact .inl ⟨route, node, action, base, slot', index', replacement, hmem, hopened, hlast,
        hmisfit⟩
    · obtain ⟨child, hchild, tail, hroute⟩ := hwithin _ hmem
      obtain rfl : route = _ := hroute
      rw [List.cons_append, below_append_of_ne (hapart child hchild)] at hlast
      exact .inr ⟨_, node, action, base, slot', index', replacement, hmem, hopened, hlast, hmisfit⟩
  · rintro (⟨route, node, action, base, slot', index', replacement, hmem, hopened, hlast, hmisfit⟩ |
      ⟨route, node, action, base, slot', index', replacement, hmem, hopened, hlast, hmisfit⟩)
    · refine ⟨(slot, index) :: route, node, action, base, slot', index', replacement,
        List.mem_append_left _ (mem_under.mpr ⟨route, rfl, hmem⟩), hopened, ?_, hmisfit⟩
      rwa [List.cons_append, hwithin.below_under_append hapart]
    · obtain ⟨child, hchild, tail, hroute⟩ := hwithin _ hmem
      obtain rfl : route = _ := hroute
      refine ⟨_, node, action, base, slot', index', replacement, List.mem_append_right _ hmem,
        hopened, ?_, hmisfit⟩
      rwa [List.cons_append, below_append_of_ne (hapart child hchild)]

section around

variable {node base : Node} {action : VisitAction} {below : History}
  {leaving : Option (Node × VisitAction)} {children : List (Slot × ℕ × Node)} {misfit : Misfit}

theorem mem_around {hook : Hook} : hook ∈ around node action below leaving ↔
    hook = ⟨.enter, [], node, action⟩ ∨ hook ∈ below ∨
      ∃ seen answer, leaving = some (seen, answer) ∧ hook = ⟨.leave, [], seen, answer⟩ := by
  rcases leaving with - | ⟨seen, answer⟩ <;> simp [around, and_assoc]

theorem Within.ne_nil (hwithin : below.Within children) : ∀ hook ∈ below, hook.route ≠ [] := by
  intro hook hhook heq
  obtain ⟨child, -, route, hroute⟩ := hwithin hook hhook
  exact List.cons_ne_nil _ _ (hroute.symm.trans heq)

theorem below_around {key : Slot × ℕ} {route : Route} :
    (around node action below leaving).replacements.below (key :: route) =
      below.replacements.below (key :: route) := by
  funext phase rest
  show (around node action below leaving).replacements phase (key :: (route ++ rest)) =
    below.replacements phase (key :: (route ++ rest))
  rw [around, replacements_cons, replacements_append]
  cases leaving <;> simp [replacements]

theorem LeavesRewritten.around (h : below.LeavesRewritten) (hwithin : below.Within children)
    (hleaving : ∀ seen answer, leaving = some (seen, answer) → ∃ final,
      Rewrites (History.around node action below leaving).replacements node seen final) :
    (History.around node action below leaving).LeavesRewritten := by
  intro route seen answer hmem
  rcases mem_around.mp hmem with heq | hmem | ⟨seen', answer', hsome, heq⟩
  · cases heq
  · obtain ⟨node', action', final, henter, hrewrites⟩ := h route seen answer hmem
    obtain ⟨child, -, tail, hroute⟩ := hwithin _ hmem
    obtain rfl : route = _ := hroute
    refine ⟨node', action', final, mem_around.mpr (.inr (.inl henter)), ?_⟩
    rwa [below_around]
  · cases heq
    obtain ⟨final, hrewrites⟩ := hleaving seen answer hsome
    exact ⟨node, action, final, mem_around.mpr (.inl rfl), hrewrites⟩

end around

end

end History

end

end Traversal

end GraphQL
