import Mathlib.Data.Finset.Card
import Mathlib.Data.Finset.Range
import Mathlib.Logic.Function.Basic
import Mathlib.Logic.Relation

/-! A depth-first search that computes a value for every node from the values of its successors.

A node that is met again contributes the value that is stored for it, also while it is still in progress. The values of a run
are thus a solution of the equations of the nodes only if nothing is fed back along a cycle. -/
namespace MetaCG.Foundations
set_option autoImplicit false
set_option maxHeartbeats 250000
set_option maxRecDepth 120000

namespace DepthFirst
variable {α β : Type} [DecidableEq α]

/-- The loop of `n` over the successors `cs`: it starts with the value `acc`, the visited nodes `V` and the stored values `S`,
and ends with `v`, `V'` and `S'`. A node that was not visited is searched before its value is stored. -/
inductive Loop (succ : α → List α) (own : α → β) (f : α → β → β → β) :
    α → List α → β → Finset α → (α → β) → β → Finset α → (α → β) → Prop where
  | nil {n : α} {acc : β} {V : Finset α} {S : α → β} : Loop succ own f n [] acc V S acc V S
  | seen {n c : α} {cs : List α} {acc v : β} {V V' : Finset α} {S S' : α → β} (hc : c ∈ V)
      (rest : Loop succ own f n cs (f n acc (S c)) V S v V' S') : Loop succ own f n (c :: cs) acc V S v V' S'
  | fresh {n c : α} {cs : List α} {acc v w : β} {V V₁ V' : Finset α} {S S₁ S' : α → β} (hc : c ∉ V)
      (inner : Loop succ own f c (succ c) (own c) (insert c V) S w V₁ S₁)
      (rest : Loop succ own f n cs (f n acc w) V₁ (Function.update S₁ c w) v V' S') : Loop succ own f n (c :: cs) acc V S v V' S'

/-- The search from `n`, where nothing is visited yet. -/
def Run (succ : α → List α) (own : α → β) (f : α → β → β → β) (n : α) (S : α → β) (V : Finset α) (S' : α → β) : Prop :=
  ∃ v, Loop succ own f n [n] (own n) ∅ S v V S'

/-- The value of `n` is the one that the values of its successors give. -/
def Solves (succ : α → List α) (own : α → β) (f : α → β → β → β) (S : α → β) (n : α) : Prop :=
  S n = (succ n).foldl (fun acc c => f n acc (S c)) (own n)

/-- `y` is a successor of `x`. -/
def Edge (succ : α → List α) (x y : α) : Prop := y ∈ succ x

section
variable {succ : α → List α} {own : α → β} {f : α → β → β → β} {n : α} {cs : List α} {acc v : β} {V V' : Finset α} {S S' : α → β}

omit [DecidableEq α] in
theorem foldl_congr_values {l : List α} (h : ∀ c ∈ l, S c = S' c) (acc : β) :
    l.foldl (fun acc c => f n acc (S c)) acc = l.foldl (fun acc c => f n acc (S' c)) acc := by
  induction l generalizing acc with
  | nil => rfl
  | cons c l ih =>
    rw [List.foldl_cons, List.foldl_cons, h c (List.mem_cons_self ..)]
    exact ih (fun d hd => h d (List.mem_cons_of_mem c hd)) _

omit [DecidableEq α] in
theorem Solves.congr {x : α} (h : Solves succ own f S x) (hx : S x = S' x) (hsucc : ∀ c ∈ succ x, S c = S' c) :
    Solves succ own f S' x := by
  unfold Solves at h ⊢
  rw [← hx, h]
  exact foldl_congr_values hsucc (own x)

/-! ## What a run visits and leaves alone -/

theorem Loop.mono (h : Loop succ own f n cs acc V S v V' S') : V ⊆ V' := by
  induction h with
  | nil => exact subset_rfl
  | seen _ _ ih => exact ih
  | fresh _ _ _ ih₁ ih₂ => exact (Finset.subset_insert ..).trans (ih₁.trans ih₂)

theorem Loop.visits (h : Loop succ own f n cs acc V S v V' S') : ∀ c ∈ cs, c ∈ V' := by
  induction h with
  | nil => exact fun c hc => absurd hc List.not_mem_nil
  | seen hc rest ih =>
    intro d hd
    rcases List.mem_cons.mp hd with rfl | hd
    · exact rest.mono hc
    · exact ih d hd
  | fresh _ inner rest _ ih =>
    intro d hd
    rcases List.mem_cons.mp hd with rfl | hd
    · exact rest.mono (inner.mono (Finset.mem_insert_self ..))
    · exact ih d hd

/-- A value is stored only for a node that is visited for the first time. -/
theorem Loop.frame (h : Loop succ own f n cs acc V S v V' S') : ∀ x, x ∈ V ∨ x ∉ V' → S' x = S x := by
  induction h with
  | nil => exact fun _ _ => rfl
  | seen _ _ ih => exact ih
  | @fresh n c cs acc v w V V₁ V' S S₁ S' hc inner rest ih₁ ih₂ =>
    intro x hx
    have hinsert : insert c V ⊆ V₁ := inner.mono
    have hne : x ≠ c := by
      rintro rfl
      rcases hx with hx | hx
      · exact hc hx
      · exact hx (rest.mono (hinsert (Finset.mem_insert_self ..)))
    have hx₁ : x ∈ insert c V ∨ x ∉ V₁ := hx.imp Finset.mem_insert_of_mem fun hx hin => hx (rest.mono hin)
    have hx₂ : x ∈ V₁ ∨ x ∉ V' := hx.imp_left fun hx => hinsert (Finset.mem_insert_of_mem hx)
    rw [ih₂ x hx₂, Function.update_of_ne hne, ih₁ x hx₁]

/-- The value of a loop comes from the values that are stored in the end. -/
theorem Loop.value (h : Loop succ own f n cs acc V S v V' S') : v = cs.foldl (fun acc c => f n acc (S' c)) acc := by
  induction h with
  | nil => rfl
  | seen hc rest ih => rw [List.foldl_cons, rest.frame _ (.inl hc), ← ih]
  | fresh _ inner rest _ ih =>
    rw [List.foldl_cons, rest.frame _ (.inl (inner.mono (Finset.mem_insert_self ..))), Function.update_self, ← ih]

theorem Loop.closed (h : Loop succ own f n cs acc V S v V' S') : ∀ x ∈ V', x ∉ V → ∀ y ∈ succ x, y ∈ V' := by
  induction h with
  | nil => exact fun x hx hnew => absurd hx hnew
  | seen _ _ ih => exact ih
  | @fresh n c cs acc v w V V₁ V' S S₁ S' hc inner rest ih₁ ih₂ =>
    intro x hx hnew y hy
    by_cases hx₁ : x ∈ V₁
    · by_cases hxc : x = c
      · subst hxc
        exact rest.mono (inner.visits y hy)
      · exact rest.mono (ih₁ x hx₁ (by simp [hxc, hnew]) y hy)
    · exact ih₂ x hx hx₁ y hy

/-- A run visits all that its start reaches. -/
theorem Run.visits {x : α} (h : Run succ own f n S V S') (hx : Relation.ReflTransGen (Edge succ) n x) : x ∈ V := by
  obtain ⟨v, hloop⟩ := h
  induction hx with
  | refl => exact hloop.visits n (List.mem_singleton_self n)
  | tail _ he ih => exact hloop.closed _ ih (Finset.notMem_empty _) _ he

/-- There are only finitely many nodes to visit. -/
theorem Loop.returns {U : Finset α} (hU : ∀ x ∈ U, ∀ y ∈ succ x, y ∈ U) (n : α) (cs : List α) (hcs : ∀ c ∈ cs, c ∈ U) (acc : β)
    (V : Finset α) (S : α → β) : ∃ v V' S', Loop succ own f n cs acc V S v V' S' := by
  induction hcard : (U \ V).card using Nat.strong_induction_on generalizing n cs acc V S with
  | _ card ih =>
  -- the rest of the loop finds no more nodes to visit than there are now
  suffices hloop : ∀ V' : Finset α, V ⊆ V' → ∀ (acc : β) (S : α → β), ∃ v V'' S', Loop succ own f n cs acc V' S v V'' S' from
    hloop V subset_rfl acc S
  induction cs with
  | nil => exact fun V' _ acc S => ⟨acc, V', S, .nil⟩
  | cons c cs ihcs =>
    intro V' hV acc S
    have ihrest := ihcs fun d hd => hcs d (List.mem_cons_of_mem c hd)
    by_cases hc : c ∈ V'
    · obtain ⟨v, V'', S', hrest⟩ := ihrest V' hV (f n acc (S c)) S
      exact ⟨v, V'', S', .seen hc hrest⟩
    · have hcU : c ∈ U := hcs c (List.mem_cons_self ..)
      have hlt : (U \ insert c V').card < card := by
        rw [← hcard]
        refine Finset.card_lt_card (Finset.ssubset_iff_subset_ne.mpr ⟨?_, fun he => ?_⟩)
        · exact Finset.sdiff_subset_sdiff subset_rfl (hV.trans (Finset.subset_insert ..))
        · have hmem : c ∈ U \ V := Finset.mem_sdiff.mpr ⟨hcU, fun hin => hc (hV hin)⟩
          rw [← he] at hmem
          exact (Finset.mem_sdiff.mp hmem).2 (Finset.mem_insert_self ..)
      obtain ⟨w, V₁, S₁, hinner⟩ := ih _ hlt c (succ c) (hU c hcU) (own c) (insert c V') S rfl
      have hV₁ : V ⊆ V₁ := hV.trans ((Finset.subset_insert ..).trans hinner.mono)
      obtain ⟨v, V'', S', hrest⟩ := ihrest V₁ hV₁ (f n acc w) (Function.update S₁ c w)
      exact ⟨v, V'', S', .fresh hc hinner hrest⟩

/-! ## Runs and solutions -/

/-- A run from a solution changes nothing. -/
theorem Loop.stable {P : α → Prop} (h : Loop succ own f n cs acc V S v V' S') (hP : ∀ x, P x → ∀ y ∈ succ x, P y)
    (hsol : ∀ x, P x → Solves succ own f S x) (hcs : ∀ c ∈ cs, P c) : S' = S := by
  induction h with
  | nil => rfl
  | seen _ _ ih => exact ih hsol fun d hd => hcs d (List.mem_cons_of_mem _ hd)
  | @fresh n c cs acc v w V V₁ V' S S₁ S' hc inner rest ih₁ ih₂ =>
    have hPc : P c := hcs c (List.mem_cons_self ..)
    have hS₁ : S₁ = S := ih₁ hsol (hP c hPc)
    have hw : w = S c := by
      rw [inner.value, hS₁]
      exact (hsol c hPc).symm
    have hupdate : Function.update S₁ c w = S := by rw [hS₁, hw, Function.update_eq_self]
    rw [hupdate] at ih₂
    exact ih₂ hsol fun d hd => hcs d (List.mem_cons_of_mem _ hd)

/-- A run that changes nothing has found a solution. -/
theorem Loop.solved_of_unchanged (h : Loop succ own f n cs acc V S v V' S') (heq : S' = S) :
    ∀ x ∈ V', x ∉ V → Solves succ own f S x := by
  induction h with
  | nil => exact fun x hx hnew => absurd hx hnew
  | seen _ _ ih => exact ih heq
  | @fresh n c cs acc v w V V₁ V' S S₁ S' hc inner rest ih₁ ih₂ =>
    have hcV₁ : c ∈ V₁ := inner.mono (Finset.mem_insert_self ..)
    have hS₂ : Function.update S₁ c w = S := by
      funext x
      by_cases hx : x ∈ V₁
      · rw [← rest.frame x (.inl hx), heq]
      · have hne : x ≠ c := fun he => hx (he ▸ hcV₁)
        rw [Function.update_of_ne hne, inner.frame x (.inr hx)]
    have hS₁ : S₁ = S := by
      funext x
      by_cases hx : x = c
      · rw [hx]
        exact inner.frame c (.inl (Finset.mem_insert_self ..))
      · rw [← hS₂, Function.update_of_ne hx]
    intro x hx hnew
    by_cases hxc : x = c
    · subst hxc
      have hw : w = S x := by rw [← hS₂, Function.update_self]
      unfold Solves
      rw [← hw, inner.value, hS₁]
    · by_cases hx₁ : x ∈ V₁
      · exact ih₁ hS₁ x hx₁ (by simp [hxc, hnew])
      · have hsolved := ih₂ (heq.trans hS₂.symm) x hx hx₁
        rwa [hS₂] at hsolved

/-- What holds between two visits when the nodes of `P` are in progress: the other visited nodes are solved and so is `Z`. -/
structure Solved (succ : α → List α) (own : α → β) (f : α → β → β → β) (Z : Set α) (P V : Finset α) (S : α → β) : Prop where
  closed : ∀ x ∈ V, x ∉ P → ∀ y ∈ succ x, y ∈ V ∧ (y ∈ P → Relation.ReflTransGen (Edge succ) y x)
  solved : ∀ x ∈ V, x ∉ P → Solves succ own f S x
  base : ∀ z ∈ Z, Solves succ own f S z

theorem Solved.enter {Z : Set α} {P : Finset α} {c : α} (h : Solved succ own f Z P V S) (hc : c ∉ V) :
    Solved succ own f Z (insert c P) (insert c V) S where
  closed := by
    intro x hx hxP y hy
    rw [Finset.mem_insert, not_or] at hxP
    obtain ⟨hyV, hback⟩ := h.closed x ((Finset.mem_insert.mp hx).resolve_left hxP.1) hxP.2 y hy
    refine ⟨Finset.mem_insert_of_mem hyV, fun hyP => ?_⟩
    rcases Finset.mem_insert.mp hyP with rfl | hyP
    · exact absurd hyV hc
    · exact hback hyP
  solved := by
    intro x hx hxP
    rw [Finset.mem_insert, not_or] at hxP
    exact h.solved x ((Finset.mem_insert.mp hx).resolve_left hxP.1) hxP.2
  base := h.base

/-- The value of `c` is stored. If `c` is on no cycle, no node that is solved already has looked at it. -/
theorem Solved.leave {Z : Set α} {P : Finset α} {c : α} {w : β} (h : Solved succ own f Z (insert c P) V S)
    (hZ : ∀ z ∈ Z, ∀ y ∈ succ z, y ∈ Z) (hcycle : Relation.TransGen (Edge succ) c c → c ∈ Z)
    (hP : ∀ p ∈ P, Relation.ReflTransGen (Edge succ) p c) (hsucc : ∀ y ∈ succ c, y ∈ V)
    (hw : w = (succ c).foldl (fun acc y => f c acc (S y)) (own c)) : Solved succ own f Z P V (Function.update S c w) := by
  have hclosed : ∀ x ∈ V, x ∉ P → ∀ y ∈ succ x, y ∈ V ∧ (y ∈ P → Relation.ReflTransGen (Edge succ) y x) := by
    intro x hx hxP y hy
    by_cases hxc : x = c
    · subst hxc
      exact ⟨hsucc y hy, hP y⟩
    · obtain ⟨hyV, hback⟩ := h.closed x hx (by simp [hxc, hxP]) y hy
      exact ⟨hyV, fun hyP => hback (Finset.mem_insert_of_mem hyP)⟩
  by_cases hc : c ∈ Z
  · have hsame : Function.update S c w = S := by
      rw [hw, ← h.base c hc, Function.update_eq_self]
    rw [hsame]
    refine ⟨hclosed, fun x hx hxP => ?_, h.base⟩
    by_cases hxc : x = c
    · exact hxc ▸ h.base c hc
    · exact h.solved x hx (by simp [hxc, hxP])
  · have hkeep : ∀ x, x ≠ c → c ∉ succ x → Solves succ own f S x → Solves succ own f (Function.update S c w) x := by
      intro x hxc hnot hsol
      refine hsol.congr (Function.update_of_ne hxc ..).symm fun y hy => (Function.update_of_ne ?_ ..).symm
      exact fun he => hnot (he ▸ hy)
    refine ⟨hclosed, fun x hx hxP => ?_, fun z hz => ?_⟩
    · by_cases hxc : x = c
      · subst hxc
        have hself : x ∉ succ x := fun hin => hc (hcycle (.single hin))
        unfold Solves
        rw [Function.update_self, hw]
        refine foldl_congr_values (fun y hy => ?_) _
        have hne : y ≠ x := fun he => hself (he ▸ hy)
        exact (Function.update_of_ne hne ..).symm
      · have hxP' : x ∉ insert c P := by simp [hxc, hxP]
        refine hkeep x hxc (fun hin => hc (hcycle ?_)) (h.solved x hx hxP')
        exact .tail' ((h.closed x hx hxP' c hin).2 (Finset.mem_insert_self ..)) hin
    · exact hkeep z (fun he => hc (he ▸ hz)) (fun hin => hc (hZ z hz c hin)) (h.base z hz)

/-- If what lies on and behind the cycles is solved from the beginning, a run finds a solution. -/
theorem Loop.solved {root : α} {Z : Set α} {P : Finset α} (h : Loop succ own f n cs acc V S v V' S')
    (hZ : ∀ z ∈ Z, ∀ y ∈ succ z, y ∈ Z)
    (hcycle : ∀ x, Relation.ReflTransGen (Edge succ) root x → Relation.TransGen (Edge succ) x x → x ∈ Z)
    (hsolved : Solved succ own f Z P V S)
    (hcs : ∀ c ∈ cs, Relation.ReflTransGen (Edge succ) root c ∧ ∀ p ∈ P, Relation.ReflTransGen (Edge succ) p c) :
    Solved succ own f Z P V' S' := by
  induction h generalizing P with
  | nil => exact hsolved
  | seen _ _ ih => exact ih hsolved fun d hd => hcs d (List.mem_cons_of_mem _ hd)
  | @fresh n c cs acc v w V V₁ V' S S₁ S' hc inner rest ih₁ ih₂ =>
    obtain ⟨hroot, hPc⟩ := hcs c (List.mem_cons_self ..)
    have hinner : Solved succ own f Z (insert c P) V₁ S₁ := by
      refine ih₁ (hsolved.enter hc) fun y hy => ⟨hroot.tail hy, fun p hp => ?_⟩
      rcases Finset.mem_insert.mp hp with rfl | hp
      · exact .single hy
      · exact (hPc p hp).tail hy
    exact ih₂ (hinner.leave hZ (hcycle c hroot) hPc inner.visits inner.value) fun d hd => hcs d (List.mem_cons_of_mem _ hd)

/-- If what lies on and behind the cycles is solved from the beginning, a second run changes nothing. -/
theorem Run.repeats {S₁ S₂ : α → β} {V₁ V₂ : Finset α} (h₁ : Run succ own f n S V₁ S₁) (h₂ : Run succ own f n S₁ V₂ S₂) {Z : Set α}
    (hZ : ∀ z ∈ Z, ∀ y ∈ succ z, y ∈ Z)
    (hcycle : ∀ x, Relation.ReflTransGen (Edge succ) n x → Relation.TransGen (Edge succ) x x → x ∈ Z)
    (hbase : ∀ z ∈ Z, Solves succ own f S z) : S₂ = S₁ := by
  have hvisits : ∀ x, Relation.ReflTransGen (Edge succ) n x → x ∈ V₁ := fun x hx => h₁.visits hx
  obtain ⟨v₁, hloop₁⟩ := h₁
  obtain ⟨v₂, hloop₂⟩ := h₂
  have hstart : Solved succ own f Z ∅ ∅ S :=
    ⟨fun x hx => absurd hx (Finset.notMem_empty x), fun x hx => absurd hx (Finset.notMem_empty x), hbase⟩
  have hsolved := hloop₁.solved hZ hcycle hstart fun c hc => by
    rw [List.mem_singleton.mp hc]
    exact ⟨.refl, fun p hp => absurd hp (Finset.notMem_empty p)⟩
  refine hloop₂.stable (P := fun x => Relation.ReflTransGen (Edge succ) n x) (fun x hx y hy => hx.tail hy)
    (fun x hx => hsolved.solved x (hvisits x hx) (Finset.notMem_empty x)) fun c hc => ?_
  rw [List.mem_singleton.mp hc]

/-- If a second run changes nothing, the first has found a solution. -/
theorem Run.solves_of_repeats {S₁ : α → β} {V₂ : Finset α} (h₂ : Run succ own f n S₁ V₂ S₁) {x : α}
    (hx : Relation.ReflTransGen (Edge succ) n x) : Solves succ own f S₁ x := by
  have hmem : x ∈ V₂ := h₂.visits hx
  obtain ⟨v, hloop⟩ := h₂
  exact hloop.solved_of_unchanged rfl x hmem (Finset.notMem_empty x)

end

end DepthFirst
end MetaCG.Foundations
