import Mathlib
import GraphQL.Validation.Merging.Plan

/-!
# What plans yield

`Plan.run` is a recursion that may go on without end, so nothing can be proved of it by
evaluation.  This file replaces it by relations between the memory before and after.

* `Plan.Yields` goes through a plan by its constructors, given the answers to the
  comparisons it asks for; `run_eq_some_iff` ties it to `Plan.run`.
* `Settles` says that a comparison comes to an end, and `Settles.induct` is the induction
  over everything that was asked for on the way.
* `Plan.Asks` says that a plan comes to ask for a comparison.  If all that a plan asks for
  comes to an end, the plan does (`exists_yields_of_asks`), and conversely
  (`Yields.exists_answer_of_asks`).

The memory only grows: `Memory.Extends` is what every step keeps.
-/

namespace GraphQL.Merging

variable {α β : Type}

/-! ## Growing memory -/

/-- A memory that knows at least as much. -/
structure Memory.Extends (larger memory : Memory) : Prop where
  parent? : ∀ {place known}, memory.parent? place = some known →
    larger.parent? place = some known
  covers : ∀ {exclusive name₁ name₂}, memory.covers exclusive name₁ name₂ = true →
    larger.covers exclusive name₁ name₂ = true

namespace Memory

theorem Extends.refl (memory : Memory) : memory.Extends memory := ⟨id, id⟩

theorem Extends.trans {first second third : Memory} (h₂ : third.Extends second)
    (h₁ : second.Extends first) : third.Extends first :=
  ⟨fun h => h₂.parent? (h₁.parent? h), fun h => h₂.covers (h₁.covers h)⟩

/-- What a set is looked at with is known from then on. -/
theorem parent?_look (memory : Memory) (place : Place) (parent : Option TypeDef) :
    (memory.look place parent).2.parent? place = some (memory.look place parent).1 := by
  unfold look
  cases h : memory.parent? place with
  | some known => exact h
  | none => simp [Memory.parent?]

theorem extends_look (memory : Memory) (place : Place) (parent : Option TypeDef) :
    (memory.look place parent).2.Extends memory := by
  unfold look
  cases h : memory.parent? place with
  | some known => exact .refl memory
  | none =>
      refine ⟨fun {other known} hother => ?_, id⟩
      have hne : place ≠ other := fun heq => by simp [← heq, h] at hother
      simpa [Memory.parent?, hne] using hother

theorem covers_self (memory : Memory) (exclusive : Bool) (name : String) :
    memory.covers exclusive name name = true := by
  simp [covers]

theorem compared?_comm (memory : Memory) (name₁ name₂ : String) :
    memory.compared? name₁ name₂ = memory.compared? name₂ name₁ := by
  simp only [compared?, or_comm]

theorem covers_comm (memory : Memory) (exclusive : Bool) (name₁ name₂ : String) :
    memory.covers exclusive name₁ name₂ = memory.covers exclusive name₂ name₁ := by
  simp only [covers, compared?_comm memory name₁ name₂, eq_comm]

/-- Fragments that are compared under objects that do not differ are compared for good. -/
theorem covers_of_strict {memory : Memory} {name₁ name₂ : String}
    (h : memory.covers false name₁ name₂ = true) (exclusive : Bool) :
    memory.covers exclusive name₁ name₂ = true := by
  simp only [covers, Bool.or_eq_true, decide_eq_true_eq, Option.any_eq_true] at h ⊢
  obtain heq | ⟨before, hbefore, hstrict⟩ := h
  · exact Or.inl heq
  · exact Or.inr ⟨before, hbefore, Or.inr (by simpa using hstrict)⟩

theorem compared?_note (memory : Memory) (exclusive : Bool) (name₁ name₂ other₁ other₂ : String) :
    (memory.note exclusive name₁ name₂).compared? other₁ other₂ =
      if (name₁ = other₁ ∧ name₂ = other₂) ∨ (name₁ = other₂ ∧ name₂ = other₁) then
        some exclusive
      else memory.compared? other₁ other₂ := by
  by_cases h : (name₁ = other₁ ∧ name₂ = other₂) ∨ (name₁ = other₂ ∧ name₂ = other₁)
  · simp only [compared?, note, List.find?_cons, Prod.mk.injEq, h, decide_true, if_true,
      Option.map_some]
  · simp only [compared?, note, List.find?_cons, Prod.mk.injEq, h, decide_false, if_false]

theorem covers_note (memory : Memory) (exclusive : Bool) (name₁ name₂ : String) :
    (memory.note exclusive name₁ name₂).covers exclusive name₁ name₂ = true := by
  cases exclusive <;> simp [covers, compared?_note]

theorem extends_note {memory : Memory} {exclusive : Bool} {name₁ name₂ : String}
    (h : memory.covers exclusive name₁ name₂ = false) :
    (memory.note exclusive name₁ name₂).Extends memory := by
  refine ⟨id, fun {flag other₁ other₂} hother => ?_⟩
  by_cases hpair : (name₁ = other₁ ∧ name₂ = other₂) ∨ (name₁ = other₂ ∧ name₂ = other₁)
  · have hcovers : memory.covers flag name₁ name₂ = true := by
      rcases hpair with ⟨rfl, rfl⟩ | ⟨rfl, rfl⟩
      · exact hother
      · rwa [covers_comm]
    -- Only a comparison that asks for more is noted over another one.
    have hflag : flag = true ∨ exclusive = false := by
      cases flag with
      | true => exact Or.inl rfl
      | false =>
          rw [covers_of_strict hcovers exclusive] at h
          exact absurd h (by simp)
    simp only [covers, compared?_note, hpair, if_true, Option.any_some, Bool.or_eq_true]
    rcases hflag with rfl | rfl <;> simp
  · simpa only [covers, compared?_note, hpair, if_false] using hother

theorem extends_claim (memory : Memory) (exclusive : Bool) (name₁ name₂ : String) :
    (memory.claim exclusive name₁ name₂).2.Extends memory := by
  unfold claim
  cases h : memory.covers exclusive name₁ name₂ with
  | true => exact .refl memory
  | false => exact extends_note h

/-- Fragments count as compared after they were claimed. -/
theorem covers_claim (memory : Memory) (exclusive : Bool) (name₁ name₂ : String) :
    (memory.claim exclusive name₁ name₂).2.covers exclusive name₁ name₂ = true := by
  unfold claim
  cases h : memory.covers exclusive name₁ name₂ with
  | true => exact h
  | false => exact covers_note memory exclusive name₁ name₂

end Memory

/-! ## Going through a plan -/

/-- Which conflicts a comparison finds, from one memory to another. -/
abbrev Answers := Comparison → Memory → List Conflict → Memory → Prop

/-- The answers that nothing was found. -/
def Answers.quiet (answers : Answers) : Answers :=
  fun comparison memory found after => found = [] ∧ answers comparison memory found after

/-- A comparison was answered before some memory.  If nothing is `found` in all, nothing was
found by it. -/
def Answered (answers : Answers) (after : Memory) (found : List Conflict)
    (comparison : Comparison) : Prop :=
  ∃ before first between, answers comparison before first between ∧ after.Extends between ∧
    (found = [] → first = [])

theorem Answered.mono {answers : Answers} {after later : Memory} {found more : List Conflict}
    {comparison : Comparison} (h : Answered answers after found comparison)
    (hextends : later.Extends after) (hfound : more = [] → found = []) :
    Answered answers later more comparison := by
  obtain ⟨before, first, between, hanswer, hafter, hnil⟩ := h
  exact ⟨before, first, between, hanswer, hextends.trans hafter, hnil ∘ hfound⟩

namespace Plan

/-- A plan gets from one memory to a value and another memory. -/
def Yields (answers : Answers) : Plan α → Memory → α → Memory → Prop
  | done value, memory, result, after => value = result ∧ memory = after
  | look place parent next, memory, result, after =>
    (next (memory.look place parent).1).Yields answers (memory.look place parent).2 result after
  | claim exclusive name₁ name₂ next, memory, result, after =>
    (next (memory.claim exclusive name₁ name₂).1).Yields answers
      (memory.claim exclusive name₁ name₂).2 result after
  | compare comparison next, memory, result, after =>
    ∃ found between, answers comparison memory found between ∧
      (next found).Yields answers between result after

/-- A plan that starts with a memory comes to ask for a comparison. -/
def Asks (answers : Answers) : Plan α → Memory → Comparison → Memory → Prop
  | done _, _, _, _ => False
  | look place parent next, memory, asked, now =>
    (next (memory.look place parent).1).Asks answers (memory.look place parent).2 asked now
  | claim exclusive name₁ name₂ next, memory, asked, now =>
    (next (memory.claim exclusive name₁ name₂).1).Asks answers
      (memory.claim exclusive name₁ name₂).2 asked now
  | compare comparison next, memory, asked, now =>
    (asked = comparison ∧ now = memory) ∨
      ∃ found between, answers comparison memory found between ∧
        (next found).Asks answers between asked now

variable {answers other : Answers} {p : Plan α} {f : α → Plan β}
  {memory after now : Memory} {result : α} {asked : Comparison}

theorem Yields.mono (h : p.Yields answers memory result after)
    (hsub : ∀ {c m found m'}, answers c m found m' → other c m found m') :
    p.Yields other memory result after := by
  induction p generalizing memory with
  | done value => exact h
  | look place parent next ih => exact ih _ h
  | claim exclusive name₁ name₂ next ih => exact ih _ h
  | compare comparison next ih =>
      obtain ⟨found, between, hanswer, hrest⟩ := h
      exact ⟨found, between, hsub hanswer, ih found hrest⟩

@[simp] theorem yields_pure {value : α} :
    (pure value : Plan α).Yields answers memory result after ↔ value = result ∧ memory = after :=
  Iff.rfl

theorem yields_bind {final : β} :
    (p >>= f).Yields answers memory final after ↔
      ∃ value between, p.Yields answers memory value between ∧
        (f value).Yields answers between final after := by
  change (p.bind f).Yields answers memory final after ↔ _
  induction p generalizing memory with
  | done value =>
      constructor
      · intro h
        exact ⟨value, memory, ⟨rfl, rfl⟩, h⟩
      · rintro ⟨_, _, ⟨rfl, rfl⟩, h⟩
        exact h
  | look place parent next ih => exact ih _
  | claim exclusive name₁ name₂ next ih => exact ih _
  | compare comparison next ih =>
      constructor
      · rintro ⟨found, between, hanswer, hrest⟩
        obtain ⟨value, later, hvalue, hfinal⟩ := (ih found).mp hrest
        exact ⟨value, later, ⟨found, between, hanswer, hvalue⟩, hfinal⟩
      · rintro ⟨value, later, ⟨found, between, hanswer, hvalue⟩, hfinal⟩
        exact ⟨found, between, hanswer, (ih found).mpr ⟨value, later, hvalue, hfinal⟩⟩

@[simp] theorem asks_pure {value : α} :
    (pure value : Plan α).Asks answers memory asked now ↔ False :=
  Iff.rfl

theorem asks_bind :
    (p >>= f).Asks answers memory asked now ↔
      p.Asks answers memory asked now ∨
        ∃ value between, p.Yields answers memory value between ∧
          (f value).Asks answers between asked now := by
  change (p.bind f).Asks answers memory asked now ↔ _
  induction p generalizing memory with
  | done value =>
      constructor
      · intro h
        exact Or.inr ⟨value, memory, ⟨rfl, rfl⟩, h⟩
      · rintro (h | ⟨_, _, ⟨rfl, rfl⟩, h⟩)
        · exact h.elim
        · exact h
  | look place parent next ih => exact ih _
  | claim exclusive name₁ name₂ next ih => exact ih _
  | compare comparison next ih =>
      constructor
      · rintro (h | ⟨found, between, hanswer, hrest⟩)
        · exact Or.inl (Or.inl h)
        · rcases (ih found).mp hrest with h | ⟨value, later, hvalue, hlater⟩
          · exact Or.inl (Or.inr ⟨found, between, hanswer, h⟩)
          · exact Or.inr ⟨value, later, ⟨found, between, hanswer, hvalue⟩, hlater⟩
      · rintro ((h | ⟨found, between, hanswer, h⟩) |
          ⟨value, later, ⟨found, between, hanswer, hvalue⟩, hlater⟩)
        · exact Or.inl h
        · exact Or.inr ⟨found, between, hanswer, (ih found).mpr (Or.inl h)⟩
        · exact Or.inr ⟨found, between, hanswer,
            (ih found).mpr (Or.inr ⟨value, later, hvalue, hlater⟩)⟩

/-- A plan comes to an end if everything does that it asks for. -/
theorem exists_yields_of_asks
    (h : ∀ asked now, p.Asks answers memory asked now →
      ∃ found between, answers asked now found between) :
    ∃ result after, p.Yields answers memory result after := by
  induction p generalizing memory with
  | done value => exact ⟨value, memory, rfl, rfl⟩
  | look place parent next ih => exact ih _ h
  | claim exclusive name₁ name₂ next ih => exact ih _ h
  | compare comparison next ih =>
      obtain ⟨found, between, hanswer⟩ := h comparison memory (Or.inl ⟨rfl, rfl⟩)
      obtain ⟨result, after, hrest⟩ := ih found fun asked now hasks =>
        h asked now (Or.inr ⟨found, between, hanswer, hasks⟩)
      exact ⟨result, after, found, between, hanswer, hrest⟩

/-- Every step keeps what the memory knows. -/
theorem Yields.extends (h : p.Yields answers memory result after)
    (hanswers : ∀ {c m found m'}, answers c m found m' → m'.Extends m) :
    after.Extends memory := by
  induction p generalizing memory with
  | done value =>
      obtain ⟨-, rfl⟩ := h
      exact .refl memory
  | look place parent next ih => exact (ih _ h).trans (memory.extends_look place parent)
  | claim exclusive name₁ name₂ next ih =>
      exact (ih _ h).trans (memory.extends_claim exclusive name₁ name₂)
  | compare comparison next ih =>
      obtain ⟨found, between, hanswer, hrest⟩ := h
      exact (ih found hrest).trans (hanswers hanswer)

theorem Asks.extends (h : p.Asks answers memory asked now)
    (hanswers : ∀ {c m found m'}, answers c m found m' → m'.Extends m) :
    now.Extends memory := by
  induction p generalizing memory with
  | done value => exact h.elim
  | look place parent next ih => exact (ih _ h).trans (memory.extends_look place parent)
  | claim exclusive name₁ name₂ next ih =>
      exact (ih _ h).trans (memory.extends_claim exclusive name₁ name₂)
  | compare comparison next ih =>
      rcases h with ⟨-, rfl⟩ | ⟨found, between, hanswer, hrest⟩
      · exact .refl _
      · exact (ih found hrest).trans (hanswers hanswer)

/-! ### Rows of comparisons -/

/-- Comparisons find their conflicts one after the other. -/
def InTurn (answers : Answers) :
    List Comparison → Memory → List Conflict → Memory → Prop
  | [], memory, found, after => found = [] ∧ memory = after
  | comparison :: rest, memory, found, after =>
    ∃ first between more, answers comparison memory first between ∧
      InTurn answers rest between more after ∧ found = first ++ more

theorem yields_each {comparisons : List Comparison} {before found : List Conflict} :
    (each comparisons before).Yields answers memory found after ↔
      ∃ more, InTurn answers comparisons memory more after ∧ found = before ++ more := by
  induction comparisons generalizing memory before with
  | nil => simp [each, Yields, InTurn, eq_comm, and_comm]
  | cons comparison rest ih =>
      constructor
      · rintro ⟨first, between, hanswer, hrest⟩
        obtain ⟨more, hmore, rfl⟩ := ih.mp hrest
        exact ⟨first ++ more, ⟨first, between, more, hanswer, hmore, rfl⟩,
          List.append_assoc ..⟩
      · rintro ⟨_, ⟨first, between, more, hanswer, hmore, rfl⟩, rfl⟩
        exact ⟨first, between, hanswer,
          ih.mpr ⟨more, hmore, (List.append_assoc ..).symm⟩⟩

@[simp] theorem yields_all {comparisons : List Comparison} {found : List Conflict} :
    (all comparisons).Yields answers memory found after ↔
      InTurn answers comparisons memory found after := by
  simp [all, yields_each]

theorem mem_of_asks_each {comparisons : List Comparison} {before : List Conflict}
    (h : (each comparisons before).Asks answers memory asked now) : asked ∈ comparisons := by
  induction comparisons generalizing memory before with
  | nil => exact h.elim
  | cons comparison rest ih =>
      rcases h with ⟨rfl, -⟩ | ⟨_, _, -, hrest⟩
      · exact List.mem_cons_self
      · exact List.mem_cons_of_mem _ (ih hrest)

/-- Each comparison of a row is answered. -/
theorem InTurn.answered {comparisons : List Comparison} {found : List Conflict}
    (h : InTurn answers comparisons memory found after)
    (hanswers : ∀ {c m f m'}, answers c m f m' → m'.Extends m)
    (hmem : asked ∈ comparisons) : Answered answers after found asked := by
  induction comparisons generalizing memory found with
  | nil => simp at hmem
  | cons comparison rest ih =>
      obtain ⟨first, between, more, hanswer, hrest, rfl⟩ := h
      rcases List.mem_cons.mp hmem with rfl | hmem
      · refine ⟨memory, first, between, hanswer, ?_, ?_⟩
        · exact (yields_all.mpr hrest).extends hanswers
        · exact fun hnil => (List.append_eq_nil_iff.mp hnil).1
      · refine (ih hrest hmem).mono (.refl after) ?_
        exact fun hnil => (List.append_eq_nil_iff.mp hnil).2

/-- If nothing was found, each of the answers was that there is nothing. -/
theorem InTurn.quiet {comparisons : List Comparison}
    (h : InTurn answers comparisons memory [] after) :
    InTurn answers.quiet comparisons memory [] after := by
  induction comparisons generalizing memory with
  | nil => exact h
  | cons comparison rest ih =>
      obtain ⟨first, between, more, hanswer, hrest, hnil⟩ := h
      obtain ⟨rfl, rfl⟩ := List.append_eq_nil_iff.mp hnil.symm
      exact ⟨[], between, [], ⟨rfl, hanswer⟩, ih hrest, rfl⟩

/-! ### What a plan keeps -/

/-- A plan that starts with a memory asks only for comparisons that are `ok`, as far as the
answers keep `inv`, and then ends with `inv` and `post`. -/
def Keeps (inv : Memory → Prop) (ok : Memory → Comparison → Prop) (post : α → Memory → Prop) :
    Plan α → Memory → Prop
  | done value, memory => inv memory ∧ post value memory
  | look place parent next, memory =>
    (next (memory.look place parent).1).Keeps inv ok post (memory.look place parent).2
  | claim exclusive name₁ name₂ next, memory =>
    (next (memory.claim exclusive name₁ name₂).1).Keeps inv ok post
      (memory.claim exclusive name₁ name₂).2
  | compare comparison next, memory =>
    inv memory ∧ ok memory comparison ∧
      ∀ found after, after.Extends memory → inv after → (next found).Keeps inv ok post after

section

variable {inv : Memory → Prop} {ok : Memory → Comparison → Prop} {post : α → Memory → Prop}

theorem Keeps.bind {final : β → Memory → Prop} (h : p.Keeps inv ok post memory)
    (hf : ∀ value after, after.Extends memory → inv after → post value after →
      (f value).Keeps inv ok final after) :
    (p >>= f).Keeps inv ok final memory := by
  change (p.bind f).Keeps inv ok final memory
  induction p generalizing memory with
  | done value => exact hf value memory (.refl memory) h.1 h.2
  | look place parent next ih =>
      exact ih _ h fun value after hext =>
        hf value after (hext.trans (memory.extends_look place parent))
  | claim exclusive name₁ name₂ next ih =>
      exact ih _ h fun value after hext =>
        hf value after (hext.trans (memory.extends_claim exclusive name₁ name₂))
  | compare comparison next ih =>
      refine ⟨h.1, h.2.1, fun found between hext hinv => ?_⟩
      exact ih found (h.2.2 found between hext hinv) fun value after hext' =>
        hf value after (hext'.trans hext)

theorem Keeps.post_of_yields (h : p.Keeps inv ok post memory)
    (hanswers : ∀ {c m found m'}, answers c m found m' → inv m → ok m c →
      inv m' ∧ m'.Extends m)
    (hyields : p.Yields answers memory result after) : inv after ∧ post result after := by
  induction p generalizing memory with
  | done value =>
      obtain ⟨rfl, rfl⟩ := hyields
      exact h
  | look place parent next ih => exact ih _ h hyields
  | claim exclusive name₁ name₂ next ih => exact ih _ h hyields
  | compare comparison next ih =>
      obtain ⟨found, between, hanswer, hrest⟩ := hyields
      obtain ⟨hinv, hext⟩ := hanswers hanswer h.1 h.2.1
      exact ih found (h.2.2 found between hext hinv) hrest

theorem Keeps.ok_of_asks (h : p.Keeps inv ok post memory)
    (hanswers : ∀ {c m found m'}, answers c m found m' → inv m → ok m c →
      inv m' ∧ m'.Extends m)
    (hasks : p.Asks answers memory asked now) : inv now ∧ ok now asked := by
  induction p generalizing memory with
  | done value => exact hasks.elim
  | look place parent next ih => exact ih _ h hasks
  | claim exclusive name₁ name₂ next ih => exact ih _ h hasks
  | compare comparison next ih =>
      rcases hasks with ⟨rfl, rfl⟩ | ⟨found, between, hanswer, hrest⟩
      · exact ⟨h.1, h.2.1⟩
      · obtain ⟨hinv, hext⟩ := hanswers hanswer h.1 h.2.1
        exact ih found (h.2.2 found between hext hinv) hrest

theorem keeps_each {comparisons : List Comparison} {before : List Conflict}
    (hinv : inv memory)
    (hok : ∀ c ∈ comparisons, ∀ m, m.Extends memory → inv m → ok m c) :
    (each comparisons before).Keeps inv ok (fun _ _ => True) memory := by
  induction comparisons generalizing memory before with
  | nil => exact ⟨hinv, trivial⟩
  | cons comparison rest ih =>
      refine ⟨hinv, hok _ List.mem_cons_self _ (.refl memory) hinv, fun found after hext hafter => ?_⟩
      exact ih hafter fun c hc m hm => hok c (List.mem_cons_of_mem _ hc) m (hm.trans hext)

end

end Plan

/-! ## Comparisons that come to an end -/

/-- A comparison comes to an end, where `plan` is what is done for each comparison. -/
def Settles (plan : Comparison → Plan (List Conflict)) : Answers :=
  fun comparison memory found after =>
    (plan comparison).run plan memory = some (found, after)

section

variable {plan : Comparison → Plan (List Conflict)} {memory after : Memory}
  {found : List Conflict} {comparison : Comparison}

theorem yields_of_carryOut {answer : Answering} {answers : Answers} {p : Plan (List Conflict)}
    (hanswer : ∀ c m found m', answer c m = some (found, m') → answers c m found m')
    (h : answer.carryOut p memory = some (found, after)) : p.Yields answers memory found after := by
  induction p generalizing memory with
  | done value =>
      cases h
      exact ⟨rfl, rfl⟩
  | look place parent next ih => exact ih _ h
  | claim exclusive name₁ name₂ next ih => exact ih _ h
  | compare comparison next ih =>
      obtain ⟨⟨between, m⟩, hbetween, hrest⟩ := Option.bind_eq_some_iff.mp h
      exact ⟨between, m, hanswer _ _ _ _ hbetween, ih _ hrest⟩

theorem run_eq_some_iff {p : Plan (List Conflict)} :
    p.run plan memory = some (found, after) ↔ p.Yields (Settles plan) memory found after := by
  unfold Plan.run
  induction p generalizing memory with
  | done value => simp [Answering.carryOut, Plan.Yields]
  | look place parent next ih =>
      rw [Answering.carryOut, Plan.Yields]
      exact ih _
  | claim exclusive name₁ name₂ next ih =>
      rw [Answering.carryOut, Plan.Yields]
      exact ih _
  | compare comparison next ih =>
      rw [Answering.carryOut, Plan.Yields]
      simp only [Option.bind_eq_bind, Option.bind_eq_some_iff, Prod.exists, ih, Settles, Plan.run]
      conv_lhs => rw [answering]

theorem settles_iff :
    Settles plan comparison memory found after ↔
      (plan comparison).Yields (Settles plan) memory found after :=
  run_eq_some_iff

/-- Induction over all comparisons that are asked for before one comes to an end. -/
theorem Settles.induct {motive : Answers}
    (step : ∀ c m found m',
      (plan c).Yields (fun c m found m' => Settles plan c m found m' ∧ motive c m found m')
        m found m' → motive c m found m')
    (h : Settles plan comparison memory found after) : motive comparison memory found after := by
  let both : Answers := fun c m found m' => Settles plan c m found m' ∧ motive c m found m'
  have key : ∀ (c : Comparison) (m : Memory) (r : List Conflict × Memory),
      answering plan c m = some r → (plan c).Yields both m r.1 r.2 := by
    refine answering.partial_correctness plan (fun c m r => (plan c).Yields both m r.1 r.2) ?_
    intro answer ih c m r hr
    refine yields_of_carryOut (fun c m found m' hanswer => ?_) hr
    have hyields := ih c m _ hanswer
    exact ⟨settles_iff.mpr (hyields.mono And.left), step _ _ _ _ hyields⟩
  exact step _ _ _ _ (key _ _ _ (by rw [answering]; exact h))

/-- The memory only grows. -/
theorem Settles.extends (h : Settles plan comparison memory found after) :
    after.Extends memory :=
  h.induct (motive := fun _ m _ m' => m'.Extends m) fun _ _ _ _ hyields =>
    hyields.extends And.right

/-- What all plans keep, all comparisons keep. -/
theorem Settles.keeps {inv : Memory → Prop} {ok : Memory → Comparison → Prop}
    (hplan : ∀ c m, inv m → ok m c → (plan c).Keeps inv ok (fun _ _ => True) m)
    (h : Settles plan comparison memory found after) (hinv : inv memory)
    (hok : ok memory comparison) : inv after ∧ after.Extends memory := by
  refine h.induct (motive := fun c m _ m' => inv m → ok m c → inv m' ∧ m'.Extends m)
    (fun c m f m' hyields hinv hok => ?_) hinv hok
  exact ⟨((hplan c m hinv hok).post_of_yields And.right hyields).1,
    (settles_iff.mpr (hyields.mono And.left)).extends⟩

end

/-- A plan that comes to an end has got an answer to everything it asks for. -/
theorem Plan.Yields.exists_answer_of_asks {plan : Comparison → Plan (List Conflict)} {p : Plan α}
    {memory after now : Memory} {result : α} {asked : Comparison}
    (h : p.Yields (Settles plan) memory result after)
    (hasks : p.Asks (Settles plan) memory asked now) :
    ∃ found between, Settles plan asked now found between ∧ after.Extends between := by
  induction p generalizing memory with
  | done value => exact hasks.elim
  | look place parent next ih => exact ih _ h hasks
  | claim exclusive name₁ name₂ next ih => exact ih _ h hasks
  | compare comparison next ih =>
      obtain ⟨found, between, hanswer, hrest⟩ := h
      rcases hasks with ⟨rfl, rfl⟩ | ⟨found', between', hanswer', hasks⟩
      · exact ⟨found, between, hanswer, hrest.extends Settles.extends⟩
      · have heq : (found', between') = (found, between) :=
          Option.some.inj (hanswer'.symm.trans hanswer)
        cases heq
        exact ih _ hrest hasks

/-! ## Searches of limited depth -/

/-- The answer to a comparison, if it leads to no more than so many others below each other. -/
def answerWithin (plan : Comparison → Plan (List Conflict)) :
    ℕ → Answering
  | 0, _, _ => none
  | depth + 1, comparison, memory =>
    (answerWithin plan depth).carryOut (plan comparison) memory

theorem settles_of_answerWithin {plan : Comparison → Plan (List Conflict)} {depth : ℕ}
    {comparison : Comparison} {memory after : Memory} {found : List Conflict}
    (h : answerWithin plan depth comparison memory = some (found, after)) :
    Settles plan comparison memory found after := by
  induction depth generalizing comparison memory found after with
  | zero => cases h
  | succ depth ih => exact settles_iff.mpr (yields_of_carryOut (fun _ _ _ _ => ih) h)

/-- A plan comes to an end if it does so without going deep. -/
theorem run_of_carryOut {plan : Comparison → Plan (List Conflict)} {p : Plan (List Conflict)}
    {memory : Memory} (depth : ℕ) {result : List Conflict × Memory}
    (h : (answerWithin plan depth).carryOut p memory = some result) :
    p.run plan memory = some result :=
  run_eq_some_iff.mpr (yields_of_carryOut (fun _ _ _ _ => settles_of_answerWithin) h)

end GraphQL.Merging
