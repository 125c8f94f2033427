import Mathlib.Data.Finset.Card
import Mathlib.Logic.Relation

/-! Searching a graph with a queue that may hold a node more than once.

A visit takes a node from the queue, marks it and queues the neighbours that are not marked.
`Frontier` is what holds between two visits, and `visit_lt` the order in which they descend: a first
visit marks a new node, and a repeated one replaces a marked node of the queue by unmarked ones. -/
namespace MetaCG.Foundations
set_option autoImplicit false
set_option maxHeartbeats 250000
set_option maxRecDepth 120000

namespace Search
variable {α : Type} {E : α → α → Prop} {s u : α} {V : Finset α} {Q next : List α}

/-- `V` is visited and `Q` is still queued in a search from `s`. -/
structure Frontier (E : α → α → Prop) (s : α) (V : Finset α) (Q : List α) : Prop where
  start : s ∈ V ∨ s ∈ Q
  reached : ∀ n, n ∈ V ∨ n ∈ Q → Relation.ReflTransGen E s n
  closed : ∀ u v, u ∈ V → E u v → v ∈ V ∨ v ∈ Q

theorem Frontier.initial : Frontier E s ∅ [s] where
  start := .inr (List.mem_singleton_self s)
  reached := by
    intro n hn
    rcases hn with hn | hn
    · exact absurd hn (Finset.notMem_empty n)
    · rw [List.mem_singleton.mp hn]
  closed := fun u v hu _ => absurd hu (Finset.notMem_empty u)

/-- An empty queue leaves exactly the nodes that the start reaches. -/
theorem Frontier.done (h : Frontier E s V []) (n : α) : n ∈ V ↔ Relation.ReflTransGen E s n := by
  refine ⟨fun hn => h.reached n (.inl hn), fun hn => ?_⟩
  induction hn with
  | refl => exact h.start.resolve_right List.not_mem_nil
  | tail _ he ih => exact (h.closed _ _ ih he).resolve_right List.not_mem_nil

variable [DecidableEq α]

theorem Frontier.visit (h : Frontier E s V (u :: Q)) (hnext : ∀ v, v ∈ next ↔ E u v ∧ v ∉ insert u V) :
    Frontier E s (insert u V) (Q ++ next) := by
  have hmove : ∀ n, n ∈ V ∨ n ∈ u :: Q → n ∈ insert u V ∨ n ∈ Q ++ next := by
    intro n hn
    rcases hn with hn | hn
    · exact .inl (Finset.mem_insert_of_mem hn)
    · rcases List.mem_cons.mp hn with rfl | hn
      · exact .inl (Finset.mem_insert_self ..)
      · exact .inr (List.mem_append_left _ hn)
  have hu : Relation.ReflTransGen E s u := h.reached u (.inr (List.mem_cons_self ..))
  refine ⟨hmove s h.start, fun n hn => ?_, fun w v hw he => ?_⟩
  · rcases hn with hn | hn
    · rcases Finset.mem_insert.mp hn with rfl | hn
      · exact hu
      · exact h.reached n (.inl hn)
    · rcases List.mem_append.mp hn with hn | hn
      · exact h.reached n (.inr (List.mem_cons_of_mem u hn))
      · exact hu.tail ((hnext n).mp hn).1
  · rcases Finset.mem_insert.mp hw with rfl | hw
    · by_cases hv : v ∈ insert w V
      · exact .inl hv
      · exact .inr (List.mem_append_right _ ((hnext v).mpr ⟨he, hv⟩))
    · exact hmove v (h.closed w v hw he)

/-- The nodes still to be visited, and the queued nodes that are visited already. -/
def remaining (nodes V : Finset α) (Q : List α) : ℕ × ℕ := ((nodes \ V).card, Q.countP fun n => n ∈ V)

theorem remaining_mono {nodes nodes₁ : Finset α} (h : nodes₁ ⊆ nodes) (V : Finset α) (Q : List α) {r : ℕ × ℕ}
    (hr : Prod.Lex (· < ·) (· < ·) (remaining nodes V Q) r) : Prod.Lex (· < ·) (· < ·) (remaining nodes₁ V Q) r := by
  have hcard : (nodes₁ \ V).card ≤ (nodes \ V).card := Finset.card_le_card (Finset.sdiff_subset_sdiff h le_rfl)
  obtain ⟨a, b⟩ := r
  rcases Prod.lex_def.mp hr with hlt | ⟨heq, hlt⟩
  · exact Prod.Lex.left _ _ (lt_of_le_of_lt hcard hlt)
  · rcases hcard.lt_or_eq with hc | hc
    · exact Prod.Lex.left _ _ (lt_of_lt_of_eq hc heq)
    · exact Prod.lex_def.mpr (.inr ⟨hc.trans heq, hlt⟩)

theorem card_sdiff_insert_lt {nodes : Finset α} (hu : u ∈ nodes) (hV : u ∉ V) : (nodes \ insert u V).card < (nodes \ V).card := by
  refine Finset.card_lt_card (Finset.ssubset_iff_subset_ne.mpr ⟨Finset.sdiff_subset_sdiff le_rfl (Finset.subset_insert u V), fun he => ?_⟩)
  have hmem : u ∈ nodes \ V := Finset.mem_sdiff.mpr ⟨hu, hV⟩
  rw [← he] at hmem
  exact (Finset.mem_sdiff.mp hmem).2 (Finset.mem_insert_self ..)

theorem visit_lt {nodes : Finset α} (hu : u ∈ nodes) (hnext : ∀ v ∈ next, v ∉ insert u V) :
    Prod.Lex (· < ·) (· < ·) (remaining nodes (insert u V) (Q ++ next)) (remaining nodes V (u :: Q)) := by
  by_cases hV : u ∈ V
  · rw [Finset.insert_eq_of_mem hV] at hnext ⊢
    refine Prod.Lex.right _ ?_
    have hzero : next.countP (fun n => n ∈ V) = 0 := by
      refine List.countP_eq_zero.mpr fun v hv => ?_
      simpa using hnext v hv
    rw [List.countP_append, hzero, List.countP_cons]
    simp [hV]
  · exact Prod.Lex.left _ _ (card_sdiff_insert_lt hu hV)

/-! ## Queueing every neighbour

A search may also queue the visited neighbours and skip a visited node when it is taken from the queue. -/

omit [DecidableEq α] in
theorem Frontier.skip (h : Frontier E s V (u :: Q)) (hu : u ∈ V) : Frontier E s V Q := by
  have hkeep : ∀ n, n ∈ V ∨ n ∈ u :: Q → n ∈ V ∨ n ∈ Q := by
    intro n hn
    rcases hn with hn | hn
    · exact .inl hn
    · rcases List.mem_cons.mp hn with rfl | hn
      · exact .inl hu
      · exact .inr hn
  exact ⟨hkeep s h.start, fun n hn => h.reached n (hn.imp_right (List.mem_cons_of_mem u)),
    fun w v hw he => hkeep v (h.closed w v hw he)⟩

theorem Frontier.visitAll (h : Frontier E s V (u :: Q)) (hnext : ∀ v, v ∈ next ↔ E u v) :
    Frontier E s (insert u V) (Q ++ next) := by
  have hfresh : ∀ v, v ∈ next.filter (fun v => v ∉ insert u V) ↔ E u v ∧ v ∉ insert u V := by
    intro v
    rw [List.mem_filter, hnext, decide_eq_true_iff]
  have hvisit := h.visit hfresh
  have hkeep : ∀ n, n ∈ insert u V ∨ n ∈ Q ++ next.filter (fun v => v ∉ insert u V) → n ∈ insert u V ∨ n ∈ Q ++ next := by
    refine fun n hn => hn.imp_right fun hn => ?_
    rw [List.mem_append] at hn ⊢
    exact hn.imp_right fun hn => (List.mem_filter.mp hn).1
  refine ⟨hkeep s hvisit.start, fun n hn => ?_, fun w v hw he => hkeep v (hvisit.closed w v hw he)⟩
  rcases hn with hn | hn
  · exact hvisit.reached n (.inl hn)
  · rcases List.mem_append.mp hn with hn | hn
    · exact h.reached n (.inr (List.mem_cons_of_mem u hn))
    · exact (h.reached u (.inr (List.mem_cons_self ..))).tail ((hnext n).mp hn)

/-! ## Several starts -/

/-- `V` is visited and `Q` is still queued in a search from all nodes of `A`. -/
structure FrontierFrom (E : α → α → Prop) (A : α → Prop) (V : Finset α) (Q : List α) : Prop where
  start : ∀ a, A a → a ∈ V ∨ a ∈ Q
  reached : ∀ n, n ∈ V ∨ n ∈ Q → ∃ a, A a ∧ Relation.ReflTransGen E a n
  closed : ∀ u v, u ∈ V → E u v → v ∈ V ∨ v ∈ Q

section
variable {A : α → Prop}

omit [DecidableEq α] in
theorem FrontierFrom.initial (hA : ∀ a, a ∈ Q ↔ A a) : FrontierFrom E A ∅ Q where
  start := fun a ha => .inr ((hA a).mpr ha)
  reached := fun n hn => ⟨n, (hA n).mp (hn.resolve_left (Finset.notMem_empty n)), .refl⟩
  closed := fun u _ hu => absurd hu (Finset.notMem_empty u)

omit [DecidableEq α] in
theorem FrontierFrom.done (h : FrontierFrom E A V []) (n : α) : n ∈ V ↔ ∃ a, A a ∧ Relation.ReflTransGen E a n := by
  refine ⟨fun hn => h.reached n (.inl hn), ?_⟩
  rintro ⟨a, ha, hn⟩
  induction hn with
  | refl => exact (h.start a ha).resolve_right List.not_mem_nil
  | tail _ he ih => exact (h.closed _ _ ih he).resolve_right List.not_mem_nil

omit [DecidableEq α] in
theorem FrontierFrom.skip (h : FrontierFrom E A V (u :: Q)) (hu : u ∈ V) : FrontierFrom E A V Q := by
  have hkeep : ∀ n, n ∈ V ∨ n ∈ u :: Q → n ∈ V ∨ n ∈ Q := by
    intro n hn
    rcases hn with hn | hn
    · exact .inl hn
    · rcases List.mem_cons.mp hn with rfl | hn
      · exact .inl hu
      · exact .inr hn
  exact ⟨fun a ha => hkeep a (h.start a ha), fun n hn => h.reached n (hn.imp_right (List.mem_cons_of_mem u)),
    fun w v hw he => hkeep v (h.closed w v hw he)⟩

theorem FrontierFrom.visitAll (h : FrontierFrom E A V (u :: Q)) (hnext : ∀ v, v ∈ next ↔ E u v) :
    FrontierFrom E A (insert u V) (Q ++ next) := by
  have hmove : ∀ n, n ∈ V ∨ n ∈ u :: Q → n ∈ insert u V ∨ n ∈ Q ++ next := by
    intro n hn
    rcases hn with hn | hn
    · exact .inl (Finset.mem_insert_of_mem hn)
    · rcases List.mem_cons.mp hn with rfl | hn
      · exact .inl (Finset.mem_insert_self ..)
      · exact .inr (List.mem_append_left _ hn)
  obtain ⟨a, ha, hu⟩ := h.reached u (.inr (List.mem_cons_self ..))
  refine ⟨fun a ha => hmove a (h.start a ha), fun n hn => ?_, fun w v hw he => ?_⟩
  · rcases hn with hn | hn
    · rcases Finset.mem_insert.mp hn with rfl | hn
      · exact ⟨a, ha, hu⟩
      · exact h.reached n (.inl hn)
    · rcases List.mem_append.mp hn with hn | hn
      · exact h.reached n (.inr (List.mem_cons_of_mem u hn))
      · exact ⟨a, ha, hu.tail ((hnext n).mp hn)⟩
  · rcases Finset.mem_insert.mp hw with rfl | hw
    · exact .inr (List.mem_append_right _ ((hnext v).mpr he))
    · exact hmove v (h.closed w v hw he)

end

/-- The nodes still to be visited, and the length of the queue. -/
def pending (nodes V : Finset α) (Q : List α) : ℕ × ℕ := ((nodes \ V).card, Q.length)

theorem pending_skip {V' : Finset α} (nodes : Finset α) (h : V ⊆ V') :
    Prod.Lex (· < ·) (· < ·) (pending nodes V' Q) (pending nodes V (u :: Q)) := by
  have hcard : (nodes \ V').card ≤ (nodes \ V).card := Finset.card_le_card (Finset.sdiff_subset_sdiff le_rfl h)
  rcases hcard.lt_or_eq with hc | hc
  · exact Prod.Lex.left _ _ hc
  · exact Prod.lex_def.mpr (.inr ⟨hc, Nat.lt_succ_self _⟩)

theorem pending_visit {nodes : Finset α} (hu : u ∈ nodes) (hV : u ∉ V) (Q Q' : List α) :
    Prod.Lex (· < ·) (· < ·) (pending nodes (insert u V) Q') (pending nodes V Q) :=
  Prod.Lex.left _ _ (card_sdiff_insert_lt hu hV)

end Search

/-- A chain that leaves a set of elements does so in one step. -/
theorem exists_crossing {α : Type} {R : α → α → Prop} {P : α → Prop} {a b : α} (h : Relation.ReflTransGen R a b)
    (ha : ¬P a) (hb : P b) :
    ∃ u v, Relation.ReflTransGen R a u ∧ R u v ∧ ¬P u ∧ P v := by
  induction h with
  | refl => exact absurd hb ha
  | @tail u v hau huv ih =>
    by_cases hu : P u
    · exact ih hu
    · exact ⟨u, v, hau, huv, hu, hb⟩

/-- A chain that avoids `A` reaches each of its elements for a first time. -/
theorem exists_firstArrival {α : Type} {R : α → α → Prop} {A : Set α} {s n : α} (hne : s ≠ n)
    (h : Relation.ReflTransGen (fun u v => R u v ∧ v ∉ A) s n) :
    ∃ p, Relation.ReflTransGen (fun u v => R u v ∧ v ∉ insert n A) s p ∧ R p n := by
  have key : ∀ m, Relation.ReflTransGen (fun u v => R u v ∧ v ∉ A) s m →
      Relation.ReflTransGen (fun u v => R u v ∧ v ∉ insert n A) s m ∨
        ∃ p, Relation.ReflTransGen (fun u v => R u v ∧ v ∉ insert n A) s p ∧ R p n := by
    intro m hm
    induction hm with
    | refl => exact .inl .refl
    | @tail u m _ hstep ih =>
      rcases ih with hu | hfound
      · by_cases hmn : m = n
        · exact .inr ⟨u, hu, hmn ▸ hstep.1⟩
        · refine .inl (hu.tail ⟨hstep.1, fun hm => ?_⟩)
          rcases hm with hm | hm
          · exact hmn hm
          · exact hstep.2 hm
      · exact .inr hfound
  rcases key n h with hn | hfound
  · rcases Relation.ReflTransGen.cases_tail hn with rfl | ⟨u, -, hstep⟩
    · exact absurd rfl hne
    · exact absurd (Set.mem_insert n A) hstep.2
  · exact hfound

end MetaCG.Foundations
