import Mathlib
import GraphQL.Proofs.Traversal.Heights
import GraphQL.Proofs.Typing.Trails
import GraphQL.Proofs.Validation.Findings

/-!
# Nodes and what is around them

A node as it stands in a document: with the nodes around it and with what stands before it in each
of them (`Occurrence`).  `Document.occurrences` lists all of them in the order of the text.

What can be around a node is told by the table of slots (`Node.exists_slot_of_mem_parts`).
Arguments stand in fields and directives only, before all that could hold arguments again, so
around a node that is no argument and in none there is nothing with arguments still to come
(`Occurrence.Stands.no_argument_ahead`).

A rule tracks a walk (`Rule.Tracks`) if at each moment it has in mind what is to be known of the
nodes around, and finds at each node what there is to find where the node stands.  This is about
single calls of the rule; `Rule.alone_of_tracks` takes it to all that the rule finds at a node and
below it.
-/

namespace GraphQL

/-! ## What stands in what -/

namespace Node

variable {node child : Node}

/-- A part stands in a slot of the node that can hold it. -/
theorem exists_slot_of_mem_parts (h : child ∈ node.parts) :
    ∃ slot ∈ node.kind.slots, child.kind ∈ node.kind.kindsIn slot := by
  obtain ⟨slot, hslot, hmem⟩ := List.mem_flatMap.mp h
  exact ⟨slot, hslot, (node.isSlot_contents slot).kind_mem child hmem⟩

theorem kind_around_of_argument (h : child ∈ node.parts) (hchild : child.kind = .argument) :
    node.kind = .field ∨ node.kind = .directive := by
  obtain ⟨slot, hslot, hkind⟩ := exists_slot_of_mem_parts h
  rw [hchild] at hkind
  revert slot
  cases node.kind <;> decide

theorem kind_around_of_objectField (h : child ∈ node.parts) (hchild : child.kind = .objectField) :
    node.kind = .objectValue := by
  obtain ⟨slot, hslot, hkind⟩ := exists_slot_of_mem_parts h
  rw [hchild] at hkind
  revert slot
  cases node.kind <;> decide

theorem kind_around_of_inputValueDefinition (h : child ∈ node.parts)
    (hchild : child.kind = .inputValueDefinition) :
    node.kind = .fieldDefinition ∨ node.kind = .inputObjectTypeDefinition ∨
      node.kind = .directiveDefinition := by
  obtain ⟨slot, hslot, hkind⟩ := exists_slot_of_mem_parts h
  rw [hchild] at hkind
  revert slot
  cases node.kind <;> decide

theorem directives_mem_slots_of_directive (h : child ∈ node.parts)
    (hchild : child.kind = .directive) : .directives ∈ node.kind.slots := by
  obtain ⟨slot, hslot, hkind⟩ := exists_slot_of_mem_parts h
  rw [hchild] at hkind
  revert slot
  cases node.kind <;> decide

theorem kind_around_of_directiveDefinition (h : child ∈ node.parts)
    (hchild : child.kind = .directiveDefinition) : node.kind = .document := by
  obtain ⟨slot, hslot, hkind⟩ := exists_slot_of_mem_parts h
  rw [hchild] at hkind
  revert slot
  cases node.kind <;> decide

theorem kind_ne_document_of_mem_parts (h : child ∈ node.parts) : child.kind ≠ .document := by
  intro hchild
  obtain ⟨slot, hslot, hkind⟩ := exists_slot_of_mem_parts h
  rw [hchild] at hkind
  revert slot
  cases node.kind <;> decide

theorem rankBelow_le_of_mem_parts (h : child ∈ node.parts) : node.rankBelow ≤ child.rank := by
  obtain ⟨slot, -, hmem⟩ := List.mem_flatMap.mp h
  exact (node.holds_contents slot).nodes child hmem

theorem rank_le_rankBelow (node : Node) : node.rank ≤ node.rankBelow := by
  cases node with
  | argument => exact one_le_two
  | _ => first | exact le_rfl | exact Nat.zero_le _

/-- After a part that can hold arguments there are no arguments. -/
theorem pairwise_parts (node : Node) :
    node.parts.Pairwise fun first later => first.rank = 0 → later.kind ≠ .argument := by
  by_cases harguments : ∃ part ∈ node.parts, part.kind = .argument
  · obtain ⟨part, hpart, hkind⟩ := harguments
    cases node using Node.byKind with
    | field f =>
        have hany {α : Type} (items : List α) : items.Pairwise fun _ _ => True :=
          List.pairwise_of_forall fun _ _ => trivial
        simp [parts_field, List.pairwise_append, List.pairwise_map, rank, kind, or_imp, forall_and,
          hany]
    | directive d =>
        refine List.pairwise_of_forall_mem_list fun first hfirst later _ hzero => ?_
        have hle := rankBelow_le_of_mem_parts hfirst
        rw [hzero] at hle
        exact absurd hle (Nat.not_succ_le_zero 0)
    | _ => rcases kind_around_of_argument hpart hkind with h | h <;> cases h
  · push Not at harguments
    exact List.pairwise_of_forall_mem_list fun _ _ later hlater _ => harguments later hlater

end Node

/-! ## Occurrences -/

/-- A node as it stands in a document. -/
structure Occurrence where
  /-- The nodes around it, the innermost first, each with the parts that stand before it in the
  one around it. -/
  around : List (List Node × Node) := []
  /-- The parts that stand before it in the innermost node around it. -/
  before : List Node := []
  node : Node

namespace Occurrence

variable {o part : Occurrence} {around : List (List Node × Node)} {before nodes : List Node}

/-- What is around the parts of the node. -/
def inside (o : Occurrence) : List (List Node × Node) := (o.before, o.node) :: o.around

/-- Some parts of the innermost node around, where they stand after others. -/
def following (around : List (List Node × Node)) (before : List Node) :
    List Node → List Occurrence
  | [] => []
  | node :: rest => ⟨around, before, node⟩ :: following around (before ++ [node]) rest

/-- The parts of the node where they stand. -/
def parts (o : Occurrence) : List Occurrence := following o.inside [] o.node.parts

theorem mem_following_iff : o ∈ following around before nodes ↔
    o.around = around ∧
      ∃ front rest, nodes = front ++ o.node :: rest ∧ o.before = before ++ front := by
  induction nodes generalizing before with
  | nil => simp [following]
  | cons node nodes ih =>
      rw [following, List.mem_cons, ih]
      constructor
      · rintro (rfl | ⟨haround, front, rest, rfl, hbefore⟩)
        · exact ⟨rfl, [], nodes, rfl, (List.append_nil before).symm⟩
        · exact ⟨haround, node :: front, rest, rfl, by simp [hbefore]⟩
      · rintro ⟨haround, front, rest, hnodes, hbefore⟩
        cases front with
        | nil =>
            obtain ⟨rfl, -⟩ := List.cons.inj hnodes
            rw [List.append_nil] at hbefore
            cases o
            exact .inl (by simp_all)
        | cons first front =>
            obtain ⟨rfl, rfl⟩ := List.cons.inj hnodes
            exact .inr ⟨haround, front, rest, rfl, by simp [hbefore]⟩

theorem mem_parts_iff : part ∈ o.parts ↔
    part.around = o.inside ∧ ∃ rest, o.node.parts = part.before ++ part.node :: rest := by
  rw [parts, mem_following_iff]
  simp [and_comm, eq_comm]

theorem node_mem_parts (h : part ∈ o.parts) : part.node ∈ o.node.parts := by
  obtain ⟨-, rest, hparts⟩ := mem_parts_iff.mp h
  exact hparts ▸ List.mem_append_cons_self

/-- The node and all that is below it, in the order of the text. -/
def all (o : Occurrence) : List Occurrence :=
  o :: o.parts.attach.flatMap fun ⟨part, _⟩ => part.all
termination_by o.node.height
decreasing_by exact Node.height_lt_of_mem_parts _ _ (node_mem_parts ‹_›)

theorem all_eq (o : Occurrence) : o.all = o :: o.parts.flatMap all := by
  rw [all, List.flatMap_subtype (fun _ _ => rfl), List.unattach_attach]

/-- What is below a node is of no lower rank than what the node holds. -/
theorem rankBelow_le_of_mem_all {below : Occurrence} (hpart : part ∈ o.parts)
    (h : below ∈ part.all) : o.node.rankBelow ≤ below.node.rank := by
  induction part using all.induct generalizing o with
  | case1 part ih =>
    have hle := Node.rankBelow_le_of_mem_parts (node_mem_parts hpart)
    rw [all_eq, List.mem_cons, List.mem_flatMap] at h
    obtain rfl | ⟨child, hchild, hbelow⟩ := h
    · exact hle
    · exact hle.trans (part.node.rank_le_rankBelow.trans (ih child hchild hchild hbelow))

/-- The node stands in a tree as told. -/
inductive Stands (root : Node) : Occurrence → Prop
  | root : Stands root { node := root }
  | part {o part : Occurrence} : Stands root o → part ∈ o.parts → Stands root part

variable {root : Node}

theorem Stands.exists_around (h : o.Stands root) (hroot : o.node ≠ root) :
    ∃ outer : Occurrence, outer.Stands root ∧ o ∈ outer.parts := by
  cases h with
  | root => exact absurd rfl hroot
  | part houter hpart => exact ⟨_, houter, hpart⟩

theorem Stands.around_of_document (h : o.Stands root) (hkind : o.node.kind = .document) :
    o.around = [] := by
  cases h with
  | root => rfl
  | part _ hpart => exact absurd hkind (Node.kind_ne_document_of_mem_parts (node_mem_parts hpart))

theorem Stands.of_mem_all (h : o.Stands root) (hpart : part ∈ o.all) : part.Stands root := by
  induction o using all.induct with
  | case1 o ih =>
    rw [all_eq, List.mem_cons, List.mem_flatMap] at hpart
    obtain rfl | ⟨child, hchild, hpart⟩ := hpart
    · exact h
    · exact ih child hchild (h.part hchild) hpart

theorem mem_all_of_mem_parts (hroot : o ∈ Occurrence.all { node := root }) (h : part ∈ o.parts) :
    part ∈ Occurrence.all { node := root } := by
  generalize ({ node := root } : Occurrence) = top at hroot
  induction top using all.induct with
  | case1 top ih =>
    rw [all_eq, List.mem_cons, List.mem_flatMap] at hroot ⊢
    obtain rfl | ⟨child, hchild, hmem⟩ := hroot
    · refine .inr ⟨part, h, ?_⟩
      rw [all_eq]
      exact List.mem_cons_self
    · exact .inr ⟨child, hchild, ih child hchild hmem⟩

theorem mem_all_iff : o ∈ Occurrence.all { node := root } ↔ o.Stands root := by
  refine ⟨Stands.root.of_mem_all, fun h => ?_⟩
  induction h with
  | root =>
      rw [all_eq]
      exact List.mem_cons_self
  | part _ hpart ih => exact mem_all_of_mem_parts ih hpart

end Occurrence

/-- All nodes of a document where they stand, in the order of the text. -/
def Document.occurrences (document : Document) : List Occurrence :=
  Occurrence.all { node := .document document }

/-- The nodes of a document where they stand are all there are. -/
theorem Document.mem_occurrences_iff {document : Document} {o : Occurrence} :
    o ∈ document.occurrences ↔ o.Stands (.document document) := Occurrence.mem_all_iff

/-! ## Moments of a walk -/

namespace Occurrence

variable {o part : Occurrence} {root : Node}

/-- The nodes around a moment of a walk, the innermost first, each with those of its parts that
have been entered by then. -/
def entered : List (List Node × Node) → List Node → List (Node × List Node)
  | [], _ => []
  | (before, node) :: around, parts => (node, parts) :: entered around (before ++ [node])

/-- The moment before the walk enters the node. -/
def ahead (o : Occurrence) : List (Node × List Node) := entered o.around o.before

/-- The moment after the walk has left the node. -/
def behind (o : Occurrence) : List (Node × List Node) := entered o.around (o.before ++ [o.node])

theorem entered_inside (o : Occurrence) (parts : List Node) :
    entered o.inside parts = (o.node, parts) :: o.behind := rfl

theorem ahead_of_mem_parts (h : part ∈ o.parts) :
    part.ahead = (o.node, part.before) :: o.behind := by
  rw [ahead, (mem_parts_iff.mp h).1, entered_inside]

theorem behind_of_mem_parts (h : part ∈ o.parts) :
    part.behind = (o.node, part.before ++ [part.node]) :: o.behind := by
  rw [behind, (mem_parts_iff.mp h).1, entered_inside]

/-- Around a node that can hold arguments there is nothing with arguments still to come. -/
theorem Stands.no_argument_ahead (h : o.Stands root) (hrank : o.node.rank = 0) :
    ∀ entry ∈ o.behind, ∀ rest, entry.1.parts = entry.2 ++ rest →
      ∀ node ∈ rest, node.kind ≠ .argument := by
  induction h with
  | root => simp [behind, entered]
  | @part o part _ hpart ih =>
    have hbelow := Node.rankBelow_le_of_mem_parts (node_mem_parts hpart)
    have hzero : o.node.rank = 0 := by
      have hle := o.node.rank_le_rankBelow
      omega
    rw [behind_of_mem_parts hpart]
    refine List.forall_mem_cons.mpr ⟨fun rest hrest node hnode => ?_, ih hzero⟩
    have hpairwise := o.node.pairwise_parts
    rw [hrest, List.append_assoc] at hpairwise
    exact List.rel_of_pairwise_cons (List.pairwise_append.mp hpairwise).2.1 hnode hrank

end Occurrence

/-! ## Rules that track a walk -/

namespace Rule

variable {schema : Schema} {document : Document} {rule : Rule}
  {check : Occurrence → List ValidationError}
  {Knows : List (Node × List Node) → RuleMemory → Prop} {o : Occurrence} {depth : ℕ}
  {c : TypeContext} {memory : RuleMemory}

/-- With in mind what is known of a moment of a walk, the rule finds `check` at each node, and it
goes on with what is known of the next moment in mind. -/
structure Tracks (schema : Schema) (document : Document) (rule : Rule)
    (check : Occurrence → List ValidationError)
    (Knows : List (Node × List Node) → RuleMemory → Prop) : Prop where
  enter : ∀ {o : Occurrence} {memory} types, o.Stands (.document document) → Knows o.ahead memory →
    ∃ finding memory', rule.enter { schema, document, types } o.node memory = (finding, memory') ∧
      (finding = .andProceed (check o) ∧ Knows (Occurrence.entered o.inside []) memory' ∨
        finding = .andSkip (check o) ∧ Knows o.behind memory' ∧
          ∀ part ∈ o.parts, ∀ below ∈ part.all, check below = [])
  leave : ∀ {o : Occurrence} {memory} types, o.Stands (.document document) →
    Knows (Occurrence.entered o.inside o.node.parts) memory →
    ∃ memory', rule.leave { schema, document, types } o.node memory = (.proceed, memory') ∧
      Knows o.behind memory'

theorem aloneEach_of_tracks {around : List (List Node × Node)} {before : List Node}
    {children : List (Slot × ℕ × Node)}
    (hpart : ∀ part ∈ Occurrence.following around before (children.map (·.2.2)), ∀ c memory,
      Knows part.ahead memory → ∃ memory',
        rule.alone schema document depth part.node c memory =
          ⟨part.all.flatMap check, memory', false⟩ ∧ Knows part.behind memory')
    (hknows : Knows (Occurrence.entered around before) memory) :
    ∃ memory', rule.aloneEach schema document depth children c memory =
        ⟨(Occurrence.following around before (children.map (·.2.2))).flatMap fun part =>
          part.all.flatMap check, memory', false⟩ ∧
      Knows (Occurrence.entered around (before ++ children.map (·.2.2))) memory' := by
  induction children generalizing before c memory with
  | nil => exact ⟨memory, rfl, by simpa using hknows⟩
  | cons child rest ih =>
      obtain ⟨slot, index, node⟩ := child
      obtain ⟨hfirst, hrest⟩ := List.forall_mem_cons.mp hpart
      obtain ⟨memory₁, halone, hknows₁⟩ := hfirst c memory hknows
      obtain ⟨memory₂, heach, hknows₂⟩ :=
        ih (c := TypeContext.after schema depth node c) hrest hknows₁
      refine ⟨memory₂, ?_, by simpa using hknows₂⟩
      simp only [aloneEach, findEach] at heach ⊢
      rw [halone]
      simp only [Bool.false_eq_true, if_false, heach]
      rfl

/-- A rule that tracks the walk finds at each node, one after the other, what there is to find
where the node stands. -/
theorem alone_of_tracks (htracks : rule.Tracks schema document check Knows)
    (hstands : o.Stands (.document document)) (hheight : o.node.height < depth)
    (hknows : Knows o.ahead memory) :
    ∃ memory', rule.alone schema document depth o.node c memory =
        ⟨o.all.flatMap check, memory', false⟩ ∧ Knows o.behind memory' := by
  induction depth generalizing o c memory with
  | zero => exact absurd hheight (Nat.not_lt_zero _)
  | succ depth ih =>
      obtain ⟨finding, entered, henter, ⟨rfl, hinside⟩ | ⟨rfl, hbehind, hbelow⟩⟩ :=
        htracks.enter (c.enter schema o.node) hstands hknows
      · have hpart : ∀ part ∈ Occurrence.following o.inside []
            (o.node.placedChildren.map (·.2.2)), ∀ c memory, Knows part.ahead memory →
            ∃ memory', rule.alone schema document depth part.node c memory =
              ⟨part.all.flatMap check, memory', false⟩ ∧ Knows part.behind memory' := by
          rw [Node.map_placedChildren]
          intro part hpart c memory hknows
          have hlower := o.node.height_lt_of_mem_parts _ (Occurrence.node_mem_parts hpart)
          exact ih (hstands.part hpart) (by omega) hknows
        obtain ⟨below, heach, hinside⟩ :=
          aloneEach_of_tracks (c := c.enter schema o.node) hpart hinside
        rw [Node.map_placedChildren, List.nil_append] at hinside
        rw [Node.map_placedChildren] at heach
        obtain ⟨left, hleave, hbehind⟩ := htracks.leave
          ((c.enter schema o.node).afterEach schema depth o.node.placedChildren) hstands hinside
        refine ⟨left, ?_, hbehind⟩
        rw [alone_of_proceed henter rfl]
        simp only [heach, hleave, Bool.false_eq_true, if_false]
        rw [o.all_eq, List.flatMap_cons, List.flatMap_assoc]
        simp [Finding.proceed, Finding.andProceed, Occurrence.parts]
      · refine ⟨entered, ?_, hbehind⟩
        have hnothing : (o.parts.flatMap Occurrence.all).flatMap check = [] := by
          rw [List.flatMap_assoc, List.flatMap_eq_nil_iff]
          exact fun part hpart => List.flatMap_eq_nil_iff.mpr (hbelow part hpart)
        rw [alone_of_skip henter rfl, o.all_eq, List.flatMap_cons, hnothing, List.append_nil]
        rfl

end Rule

end GraphQL
