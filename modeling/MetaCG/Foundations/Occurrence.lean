import Mathlib.Data.List.Infix

/-! The first occurrence of a word in a list. -/
namespace MetaCG.Foundations
set_option autoImplicit false
set_option maxHeartbeats 250000
set_option maxRecDepth 120000

section
variable {α : Type}

/-- The position at which a word occurs first. -/
def firstOccurrence [DecidableEq α] (w : List α) : List α → Option ℕ
  | [] => if w = [] then some 0 else none
  | a :: l => if w <+: a :: l then some 0 else (firstOccurrence w l).map (· + 1)

/-- The word occurs between `pre` and `rest`, and not before. -/
structure FirstAt (w l pre rest : List α) : Prop where
  occurs : l = pre ++ (w ++ rest)
  first : ∀ pre' rest', l = pre' ++ (w ++ rest') → pre.length ≤ pre'.length

variable {w l pre rest pre' rest' : List α}

theorem FirstAt.length_eq (h : FirstAt w l pre rest) (h' : FirstAt w l pre' rest') : pre.length = pre'.length :=
  le_antisymm (h.first pre' rest' h'.occurs) (h'.first pre rest h.occurs)

theorem FirstAt.unique (h : FirstAt w l pre rest) (h' : FirstAt w l pre' rest') : pre = pre' ∧ rest = rest' := by
  obtain ⟨hpre, htail⟩ := List.append_inj (h.occurs.symm.trans h'.occurs) (h.length_eq h')
  exact ⟨hpre, List.append_cancel_left htail⟩

theorem FirstAt.drop (h : FirstAt w l pre rest) : l.drop (pre.length + w.length) = rest := by
  rw [h.occurs, ← List.append_assoc, ← List.length_append, List.drop_left]

theorem FirstAt.cons {a : α} (h : FirstAt w l pre rest) (ha : ¬ w <+: a :: l) : FirstAt w (a :: l) (a :: pre) rest where
  occurs := by rw [h.occurs, List.cons_append]
  first := by
    intro pre' rest' hocc
    cases pre' with
    | nil => exact absurd ⟨rest', hocc.symm⟩ ha
    | cons b pre' =>
      have hle := h.first pre' rest' (List.cons.inj hocc).2
      rw [List.length_cons, List.length_cons]
      omega

theorem firstOccurrence_spec [DecidableEq α] (w l : List α) :
    (∃ pre rest, firstOccurrence w l = some pre.length ∧ FirstAt w l pre rest) ∨
      (firstOccurrence w l = none ∧ ∀ pre rest, l ≠ pre ++ (w ++ rest)) := by
  induction l with
  | nil =>
    by_cases hw : w = []
    · exact .inl ⟨[], [], by rw [firstOccurrence, if_pos hw]; rfl, by rw [hw]; rfl, fun _ _ _ => Nat.zero_le _⟩
    · refine .inr ⟨by rw [firstOccurrence, if_neg hw], fun pre rest hnil => hw ?_⟩
      have happ := (List.append_eq_nil_iff.mp hnil.symm).2
      exact (List.append_eq_nil_iff.mp happ).1
  | cons a l ih =>
    by_cases hpre : w <+: a :: l
    · obtain ⟨rest, hrest⟩ := hpre
      exact .inl ⟨[], rest, by rw [firstOccurrence, if_pos ⟨rest, hrest⟩]; rfl, hrest.symm, fun _ _ _ => Nat.zero_le _⟩
    · rw [firstOccurrence, if_neg hpre]
      rcases ih with ⟨pre, rest, hfirst, hat⟩ | ⟨hnone, hall⟩
      · exact .inl ⟨a :: pre, rest, by rw [hfirst]; rfl, hat.cons hpre⟩
      · refine .inr ⟨by rw [hnone]; rfl, fun pre rest hocc => ?_⟩
        cases pre with
        | nil => exact hpre ⟨rest, hocc.symm⟩
        | cons b pre => exact hall pre rest (List.cons.inj hocc).2

end
end MetaCG.Foundations
