import Mathlib
import GraphQL.Proofs.Rows
import GraphQL.Proofs.Validation.Alone

/-!
# Rules that find nothing

Where a rule finds nothing at a node, it finds nothing at a child of the node
(`Rule.Quiet.of_hasChild`), as long as it never ends its walk and goes on below the node.  From
the root of a document this leads to every part that is not lower than the walk goes.

A rule that wants the names in a group to be different and finds nothing has met different
names (`Rule.nodup_of_findEach`).
-/

namespace GraphQL

variable {schema : Schema} {document : Document} {rule : Rule} {depth : ℕ} {node child : Node}

/-! ## Going down -/

namespace Node

/-- One node is among the children of another. -/
def HasChild (node child : Node) : Prop := ∃ slot index, (slot, index, child) ∈ node.placedChildren

theorem hasChild_iff :
    node.HasChild child ↔ ∃ slot ∈ node.kind.slots, child ∈ node.children slot := by
  constructor
  · rintro ⟨slot, index, hmem⟩
    obtain ⟨slot', hslot, hmem⟩ := List.mem_flatMap.mp hmem
    obtain ⟨⟨child', index'⟩, hzip, heq⟩ := List.mem_map.mp hmem
    cases heq
    exact ⟨slot, hslot, (List.mem_zipIdx' hzip).2 ▸ List.getElem_mem _⟩
  · rintro ⟨slot, hslot, hmem⟩
    obtain ⟨index, hindex, rfl⟩ := List.getElem_of_mem hmem
    exact ⟨slot, index, List.mem_flatMap.mpr ⟨slot, hslot, List.mem_map.mpr
      ⟨_, List.mk_mem_zipIdx_iff_getElem?.mpr (List.getElem?_eq_getElem hindex), rfl⟩⟩⟩

end Node

namespace Rule

/-- The rule never ends its walk. -/
def Endures (rule : Rule) : Prop :=
  ∀ scope node memory, (rule.enter scope node memory).1.action ≠ .stop ∧
    (rule.leave scope node memory).1.action ≠ .stop

/-- The rule goes on below the node. -/
def Passes (rule : Rule) (node : Node) : Prop :=
  ∀ scope memory, (rule.enter scope node memory).1.action = .proceed

/-- The rule finds nothing at the node and below it, whatever it has in mind there. -/
def Quiet (schema : Schema) (document : Document) (rule : Rule) (depth : ℕ) (node : Node) : Prop :=
  ∃ c memory, (rule.alone schema document depth node c memory).errors = []

variable {find : Node → TypeContext → RuleMemory → Outcome}
  {after : Node → TypeContext → TypeContext} {c : TypeContext} {memory : RuleMemory}

theorem findEach_isDone (hfind : ∀ child c memory, (find child c memory).isDone = false)
    (after : Node → TypeContext → TypeContext) (children : List (Slot × ℕ × Node))
    (c : TypeContext) (memory : RuleMemory) :
    (findEach find after children c memory).isDone = false := by
  induction children generalizing c memory with
  | nil => rfl
  | cons first rest ih =>
      obtain ⟨slot, index, child⟩ := first
      simp only [findEach, hfind, Bool.false_eq_true, if_false]
      exact ih _ _

theorem alone_isDone (schema : Schema) (document : Document) (hendures : rule.Endures) (depth : ℕ) (node : Node) (c : TypeContext)
    (memory : RuleMemory) : (rule.alone schema document depth node c memory).isDone = false := by
  induction depth generalizing node c memory with
  | zero => rfl
  | succ depth ih =>
      have hbelow := findEach_isDone ih (TypeContext.after schema depth)
      obtain ⟨finding, memory', henter⟩ : ∃ finding memory', rule.enter
          { schema, document, types := c.enter schema node } node memory = (finding, memory') :=
        ⟨_, _, rfl⟩
      cases haction : finding.action with
      | skip => rw [alone_of_skip henter haction]
      | stop =>
          have hne := (hendures { schema, document, types := c.enter schema node } node memory).1
          rw [henter] at hne
          exact absurd haction hne
      | proceed =>
          rw [alone_of_proceed henter haction]
          simp only [hbelow, Bool.false_eq_true, if_false, decide_eq_false_iff_not]
          exact (hendures _ _ _).2

/-- Where nothing is found at children in turn, nothing is found at any of them. -/
theorem exists_errors_eq_nil_of_findEach {children : List (Slot × ℕ × Node)} {slot : Slot}
    {index : ℕ} (hfind : ∀ child c memory, (find child c memory).isDone = false)
    (h : (findEach find after children c memory).errors = [])
    (hmem : (slot, index, child) ∈ children) :
    ∃ c memory, (find child c memory).errors = [] := by
  induction children generalizing c memory with
  | nil => cases hmem
  | cons first rest ih =>
      obtain ⟨slot', index', child'⟩ := first
      simp only [findEach, hfind, Bool.false_eq_true, if_false, List.append_eq_nil_iff] at h
      rcases List.mem_cons.mp hmem with heq | hmem
      · cases heq
        exact ⟨c, memory, h.1⟩
      · exact ih h.2 hmem

/-- A rule that finds nothing at a node and goes on below finds nothing there. -/
theorem aloneEach_errors_eq_nil {memory' : RuleMemory} {finding : Finding}
    (henter : rule.enter { schema, document, types := c.enter schema node } node memory =
      (finding, memory')) (haction : finding.action = .proceed)
    (h : (rule.alone schema document (depth + 1) node c memory).errors = []) :
    (rule.aloneEach schema document depth node.placedChildren (c.enter schema node)
      memory').errors = [] := by
  rw [alone_of_proceed henter haction] at h
  simp only at h
  split at h
  · exact (List.append_eq_nil_iff.mp h).2
  · exact (List.append_eq_nil_iff.mp (List.append_eq_nil_iff.mp h).2).1

theorem Quiet.of_hasChild (h : rule.Quiet schema document (depth + 1) node)
    (hendures : rule.Endures) (hpasses : rule.Passes node) (hchild : node.HasChild child) :
    rule.Quiet schema document depth child := by
  obtain ⟨c, memory, h⟩ := h
  obtain ⟨slot, index, hmem⟩ := hchild
  have hfind := alone_isDone schema document hendures depth
  obtain ⟨finding, memory', henter⟩ : ∃ finding memory', rule.enter
      { schema, document, types := c.enter schema node } node memory = (finding, memory') :=
    ⟨_, _, rfl⟩
  have haction := hpasses { schema, document, types := c.enter schema node } memory
  rw [henter] at haction
  exact exists_errors_eq_nil_of_findEach hfind (aloneEach_errors_eq_nil henter haction h) hmem

/-! ## Names that are met -/

/-- The names met in the innermost group. -/
def metNames (memory : RuleMemory) : List String := (memory.names.headD []).map (·.1)

/-- A name that has not been met is met, or there is no name to be met. -/
def Meets (name? : Option String) (memory memory' : RuleMemory) : Prop :=
  match name? with
  | some name => name ∉ metNames memory ∧ metNames memory' = name :: metNames memory
  | none => metNames memory' = metNames memory

theorem meets_of_meetName {part : NamedPart} {name : String} {first again : Option Span}
    {memory memory' : RuleMemory}
    (h : RuleMemory.meetName part name first again memory = ([], memory')) :
    Meets (some name) memory memory' := by
  simp only [RuleMemory.meetName, bind, StateT.bind, get, getThe, MonadStateOf.get,
    StateT.get, pure] at h
  cases hmet : Assoc.get? (memory.names.headD []) name with
  | some span =>
      rw [hmet] at h
      cases h
  | none =>
      rw [hmet] at h
      cases h
      refine ⟨fun hmem => ?_, rfl⟩
      have hsome := Assoc.get?_isSome_iff.mpr hmem
      rw [hmet] at hsome
      cases hsome

/-- Where nothing is found at the first of some children, nothing is found at them alone. -/
theorem findEach_errors_eq_nil_of_append {first rest : List (Slot × ℕ × Node)}
    (h : (findEach find after (first ++ rest) c memory).errors = []) :
    (findEach find after first c memory).errors = [] := by
  induction first generalizing c memory with
  | nil => rfl
  | cons head tail ih =>
      obtain ⟨slot, index, child⟩ := head
      cases hdone : (find child c memory).isDone with
      | true => simpa only [List.cons_append, findEach, hdone, if_true] using h
      | false =>
          simp only [List.cons_append, findEach, hdone, Bool.false_eq_true, if_false,
            List.append_eq_nil_iff] at h ⊢
          exact ⟨h.1, ih h.2⟩

/-- If nothing is found only where a name is met for the first time, and nothing is found at
some children, their names are different, and have not been met before. -/
theorem nodup_of_findEach {name? : Node → Option String} {children : List (Slot × ℕ × Node)}
    (hfind : ∀ entry ∈ children, ∀ c memory, (find entry.2.2 c memory).isDone = false ∧
      ((find entry.2.2 c memory).errors = [] →
        Meets (name? entry.2.2) memory (find entry.2.2 c memory).memory))
    (h : (findEach find after children c memory).errors = []) :
    (children.filterMap fun entry => name? entry.2.2).Nodup ∧
      ∀ name ∈ children.filterMap fun entry => name? entry.2.2, name ∉ metNames memory := by
  induction children generalizing c memory with
  | nil => simp
  | cons first rest ih =>
      obtain ⟨slot, index, child⟩ := first
      obtain ⟨hfirst, hrest⟩ := List.forall_mem_cons.mp hfind
      obtain ⟨hdone, hmeets⟩ := hfirst c memory
      simp only [findEach, hdone, Bool.false_eq_true, if_false, List.append_eq_nil_iff] at h
      obtain ⟨hnodup, hnew⟩ := ih hrest h.2
      have hmeets := hmeets h.1
      cases hname : name? child with
      | none =>
          simp only [List.filterMap_cons, hname]
          simp only [Meets, hname] at hmeets
          rw [← hmeets]
          exact ⟨hnodup, hnew⟩
      | some name =>
          simp only [List.filterMap_cons, hname]
          simp only [Meets, hname] at hmeets
          rw [hmeets.2] at hnew
          refine ⟨List.nodup_cons.mpr ⟨fun hmem => ?_, hnodup⟩, ?_⟩
          · exact hnew name hmem List.mem_cons_self
          · refine List.forall_mem_cons.mpr ⟨hmeets.1, fun other hmem => ?_⟩
            exact fun hmet => hnew other hmem (List.mem_cons_of_mem _ hmet)

end Rule

end GraphQL
