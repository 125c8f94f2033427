import Mathlib.Data.List.Basic
import Mathlib.Data.Set.Basic

/-! Fallible operations that unite what their arguments say.

`facts` reads a value as a set of facts. If the operation succeeds on the values of a kind and its
result says exactly what either argument says, then it is commutative, associative and idempotent
up to equal facts, and a sequence of operations depends on the set of its values only. -/
namespace MetaCG.Foundations
set_option autoImplicit false
set_option maxHeartbeats 250000
set_option maxRecDepth 120000

section
variable {α φ ι ε : Type}

/-- On values with `P` the operation succeeds, and the result has `P` and the facts of both. -/
def Unites (facts : α → Set φ) (P : α → Prop) (op : α → α → ι → Except ε α) : Prop :=
  ∀ a b i, P a → P b → ∃ r, op a b i = .ok r ∧ P r ∧ facts r = facts a ∪ facts b

variable {facts : α → Set φ} {P : α → Prop} {op : α → α → ι → Except ε α}

theorem Unites.comm (h : Unites facts P op) {a b : α} (ha : P a) (hb : P b) (i j : ι) :
    ∃ r r', op a b i = .ok r ∧ op b a j = .ok r' ∧ P r ∧ P r' ∧ facts r = facts r' := by
  obtain ⟨r, hr, hpr, hfr⟩ := h a b i ha hb
  obtain ⟨r', hr', hpr', hfr'⟩ := h b a j hb ha
  exact ⟨r, r', hr, hr', hpr, hpr', by rw [hfr, hfr', Set.union_comm]⟩

theorem Unites.assoc (h : Unites facts P op) {a b c : α} (ha : P a) (hb : P b) (hc : P c) (i j k l : ι) :
    ∃ ab r bc r', op a b i = .ok ab ∧ op ab c j = .ok r ∧ op b c k = .ok bc ∧ op a bc l = .ok r' ∧ P r ∧ P r' ∧
      facts r = facts r' := by
  obtain ⟨ab, hab, hpab, hfab⟩ := h a b i ha hb
  obtain ⟨r, hr, hpr, hfr⟩ := h ab c j hpab hc
  obtain ⟨bc, hbc, hpbc, hfbc⟩ := h b c k hb hc
  obtain ⟨r', hr', hpr', hfr'⟩ := h a bc l ha hpbc
  exact ⟨ab, r, bc, r', hab, hr, hbc, hr', hpr, hpr', by rw [hfr, hfab, hfr', hfbc, Set.union_assoc]⟩

theorem Unites.idem (h : Unites facts P op) {a : α} (ha : P a) (i : ι) :
    ∃ r, op a a i = .ok r ∧ P r ∧ facts r = facts a := by
  obtain ⟨r, hr, hpr, hfr⟩ := h a a i ha ha
  exact ⟨r, hr, hpr, by rw [hfr, Set.union_self]⟩

theorem Unites.foldlM (h : Unites facts P op) (l : List (α × ι)) {a : α} (ha : P a) (hl : ∀ e ∈ l, P e.1) :
    ∃ r, l.foldlM (fun a e => op a e.1 e.2) a = .ok r ∧ P r ∧
      ∀ x, x ∈ facts r ↔ ∃ v ∈ a :: l.map Prod.fst, x ∈ facts v := by
  induction l generalizing a with
  | nil => exact ⟨a, rfl, ha, by simp⟩
  | cons e l ih =>
    obtain ⟨b, hb, hpb, hfb⟩ := h a e.1 e.2 ha (hl e (List.mem_cons_self ..))
    obtain ⟨r, hr, hpr, hfr⟩ := ih hpb (fun e' he' => hl e' (List.mem_cons_of_mem e he'))
    refine ⟨r, ?_, hpr, fun x => ?_⟩
    · rw [List.foldlM_cons, hb]
      exact hr
    · rw [hfr, List.map_cons]
      simp only [List.exists_mem_cons_iff, hfb, Set.mem_union]
      exact or_assoc

/-- Two sequences with the same values, up to equal facts, end in the same facts. -/
theorem Unites.foldlM_congr (h : Unites facts P op) {l l' : List (α × ι)} {a a' : α} (ha : P a) (ha' : P a')
    (hl : ∀ e ∈ l, P e.1) (hl' : ∀ e ∈ l', P e.1)
    (hsub : ∀ v ∈ a :: l.map Prod.fst, ∃ w ∈ a' :: l'.map Prod.fst, facts v = facts w)
    (hsub' : ∀ w ∈ a' :: l'.map Prod.fst, ∃ v ∈ a :: l.map Prod.fst, facts w = facts v) :
    ∃ r r', l.foldlM (fun a e => op a e.1 e.2) a = .ok r ∧ l'.foldlM (fun a e => op a e.1 e.2) a' = .ok r' ∧
      P r ∧ P r' ∧ facts r = facts r' := by
  obtain ⟨r, hr, hpr, hfr⟩ := h.foldlM l ha hl
  obtain ⟨r', hr', hpr', hfr'⟩ := h.foldlM l' ha' hl'
  refine ⟨r, r', hr, hr', hpr, hpr', Set.ext fun x => ?_⟩
  rw [hfr, hfr']
  constructor
  · rintro ⟨v, hv, hx⟩
    obtain ⟨w, hw, he⟩ := hsub v hv
    exact ⟨w, hw, he ▸ hx⟩
  · rintro ⟨w, hw, hx⟩
    obtain ⟨v, hv, he⟩ := hsub' w hw
    exact ⟨v, hv, he ▸ hx⟩

end
end MetaCG.Foundations
