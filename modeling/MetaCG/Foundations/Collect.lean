import Mathlib.Data.Set.Lattice

/-! Loops that collect a set.

`I S s` says that the state `s` stands for the set `S`. When a round for `a` adds `Q a`, a loop adds
the union over its list. The second rule is the same for loops that may stop with an error, where `I` also
says what the error means. -/
namespace MetaCG.Foundations
set_option autoImplicit false
set_option maxHeartbeats 250000
set_option maxRecDepth 120000

variable {α β σ ε : Type} {Q : α → Set β}

theorem union_insert_collected (S : Set β) (Q : α → Set β) (a : α) (l : List α) :
    S ∪ Q a ∪ {x | ∃ b ∈ l, x ∈ Q b} = S ∪ {x | ∃ b ∈ a :: l, x ∈ Q b} := by
  refine Set.ext fun x => ?_
  simp only [Set.mem_union, Set.mem_ofPred_eq, List.mem_cons, exists_eq_or_imp, or_assoc]

theorem union_collected_nil (S : Set β) (Q : α → Set β) : S ∪ {x | ∃ b ∈ ([] : List α), x ∈ Q b} = S := by
  simp

theorem foldl_collect {I : Set β → σ → Prop} {f : σ → α → σ} {l : List α}
    (hstep : ∀ S s a, a ∈ l → I S s → I (S ∪ Q a) (f s a)) {S : Set β} {s : σ} (h : I S s) :
    I (S ∪ {x | ∃ a ∈ l, x ∈ Q a}) (l.foldl f s) := by
  induction l generalizing S s with
  | nil =>
    rw [union_collected_nil]
    exact h
  | cons a l ih =>
    rw [List.foldl_cons, ← union_insert_collected]
    exact ih (fun S s b hb => hstep S s b (List.mem_cons_of_mem a hb)) (hstep S s a (List.mem_cons_self ..) h)

theorem foldlM_collect {I : Set β → Except ε σ → Prop} {f : σ → α → Except ε σ} {l : List α}
    (hstep : ∀ S s a, a ∈ l → I S (.ok s) → I (S ∪ Q a) (f s a))
    (herror : ∀ S S' e, S ⊆ S' → I S (.error e) → I S' (.error e)) {S : Set β} {s : σ} (h : I S (.ok s)) :
    I (S ∪ {x | ∃ a ∈ l, x ∈ Q a}) (l.foldlM f s) := by
  induction l generalizing S s with
  | nil =>
    rw [union_collected_nil]
    exact h
  | cons a l ih =>
    have ha := hstep S s a (List.mem_cons_self ..) h
    rw [List.foldlM_cons, ← union_insert_collected]
    cases hf : f s a with
    | error e =>
      rw [hf] at ha
      exact herror _ _ e Set.subset_union_left ha
    | ok s' =>
      rw [hf] at ha
      exact ih (fun S s b hb => hstep S s b (List.mem_cons_of_mem a hb)) ha

/-! ## Computations that stop exactly on bad input -/

/-- The outcome is an error exactly if `bad`, and otherwise a `good` state. -/
def StopsIf (bad : Prop) (good : σ → Prop) (r : Except ε σ) : Prop :=
  (∃ s, r = .ok s ∧ ¬bad ∧ good s) ∨ ((∃ e, r = .error e) ∧ bad)

theorem StopsIf.bind {τ : Type} {bad bad' : Prop} {good : σ → Prop} {good' : τ → Prop} {r : Except ε σ} {f : σ → Except ε τ}
    (h : StopsIf bad good r) (hbad : bad → bad') (hf : ∀ s, ¬bad → good s → StopsIf bad' good' (f s)) :
    StopsIf bad' good' (r >>= f) := by
  obtain ⟨s, rfl, hok, hs⟩ | ⟨⟨e, rfl⟩, he⟩ := h
  · exact hf s hok hs
  · exact .inr ⟨⟨e, rfl⟩, hbad he⟩

theorem StopsIf.congr {bad bad' : Prop} {good good' : σ → Prop} {r : Except ε σ} (h : StopsIf bad good r) (hbad : bad ↔ bad')
    (hgood : ∀ s, good s → good' s) : StopsIf bad' good' r := by
  obtain ⟨s, hr, hok, hs⟩ | ⟨hr, he⟩ := h
  · exact .inl ⟨s, hr, fun hb => hok (hbad.mpr hb), hgood s hs⟩
  · exact .inr ⟨hr, hbad.mp he⟩

theorem foldlM_stopsIf {B : Set β → Prop} {G : Set β → σ → Prop} {f : σ → α → Except ε σ} {l : List α}
    (hmono : ∀ S S', S ⊆ S' → B S → B S')
    (hstep : ∀ S s a, a ∈ l → ¬B S → G S s → StopsIf (B (S ∪ Q a)) (G (S ∪ Q a)) (f s a)) {S : Set β} {s : σ}
    (h₀ : ¬B S) (h : G S s) :
    StopsIf (B (S ∪ {x | ∃ a ∈ l, x ∈ Q a})) (G (S ∪ {x | ∃ a ∈ l, x ∈ Q a})) (l.foldlM f s) := by
  refine foldlM_collect (I := fun S r => StopsIf (B S) (G S) r) (fun S s a ha hs => ?_) (fun S S' e hS he => ?_)
    (.inl ⟨s, rfl, h₀, h⟩)
  · obtain ⟨s', heq, hok, hs'⟩ | ⟨⟨e, hcontra⟩, -⟩ := hs
    · cases heq
      exact hstep S s a ha hok hs'
    · cases hcontra
  · obtain ⟨s', hcontra, -⟩ | ⟨herr, hb⟩ := he
    · cases hcontra
    · exact .inr ⟨herr, hmono S S' hS hb⟩

end MetaCG.Foundations
