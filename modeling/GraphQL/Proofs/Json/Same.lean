import Mathlib
import GraphQL.Proofs.Rows

/-!
# Equality of JSON values

`Json.same` compares objects by their keys.  So a value is equal to itself if no object in it has
two members under one key (`Json.same_self`).
-/

namespace GraphQL.Json

mutual

/-- Whether every object in a value has each key once. -/
def isProper : Json → Bool
  | array items => areProper items
  | object members => (members.map (·.1)).Nodup && membersAreProper members
  | _ => true

def areProper : List Json → Bool
  | [] => true
  | item :: rest => item.isProper && areProper rest

def membersAreProper : Members → Bool
  | [] => true
  | (_, value) :: rest => value.isProper && membersAreProper rest

end

theorem isProper_of_mem_items {items : List Json} {value : Json} (h : areProper items)
    (hmem : value ∈ items) : value.isProper := by
  induction items with
  | nil => cases hmem
  | cons item rest ih =>
      rw [areProper, Bool.and_eq_true] at h
      rcases List.mem_cons.mp hmem with rfl | hmem
      · exact h.1
      · exact ih h.2 hmem

theorem isProper_of_mem_members {members : Members} {member : String × Json}
    (h : membersAreProper members) (hmem : member ∈ members) : member.2.isProper := by
  induction members with
  | nil => cases hmem
  | cons first rest ih =>
      rw [membersAreProper, Bool.and_eq_true] at h
      rcases List.mem_cons.mp hmem with rfl | hmem
      · exact h.1
      · exact ih h.2 hmem

/-- An object has equals of some members if it has one under the key of each. -/
theorem sameMembers_of_forall {members others : Members}
    (h : ∀ entry ∈ members, ∃ other, Assoc.get? others entry.1 = some other ∧ same entry.2 other) :
    sameMembers members others := by
  induction members with
  | nil => rw [sameMembers]
  | cons entry rest ih =>
      obtain ⟨⟨other, hother, hsame⟩, hrest⟩ := List.forall_mem_cons.mp h
      rw [sameMembers, hother, ih hrest, Bool.and_true]
      exact hsame

mutual

/-- A value is equal to itself. -/
theorem same_self : ∀ {value : Json}, value.isProper → same value value
  | .null, _ => by rw [same]
  | .bool b, _ => by simp [same]
  | .int i, _ => by simp [same]
  | .float x, _ => by simp [same, Binary64.equals]
  | .string s, _ => by simp [same]
  | .array items, h => by
      rw [same]
      exact sameItems_self h
  | .object members, h => by
      rw [isProper, Bool.and_eq_true] at h
      rw [same, decide_eq_true rfl, Bool.true_and]
      refine sameMembers_of_forall fun entry hentry => ⟨entry.2, ?_, same_member h.2 entry hentry⟩
      exact Assoc.get?_of_mem (of_decide_eq_true h.1) hentry

theorem sameItems_self : ∀ {items : List Json}, areProper items → sameItems items items
  | [], _ => by rw [sameItems]
  | item :: rest, h => by
      rw [areProper, Bool.and_eq_true] at h
      rw [sameItems, same_self h.1, sameItems_self h.2, Bool.and_self]

theorem same_member : ∀ {members : Members}, membersAreProper members →
    ∀ entry ∈ members, same entry.2 entry.2
  | [], _ => fun _ hmem => absurd hmem List.not_mem_nil
  | (key, value) :: rest, h => by
      rw [membersAreProper, Bool.and_eq_true] at h
      exact List.forall_mem_cons.mpr ⟨same_self h.1, same_member h.2⟩

end

end GraphQL.Json
