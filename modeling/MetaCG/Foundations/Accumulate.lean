import Mathlib.Algebra.Group.Basic
import Mathlib.Algebra.Module.NatInt
import Mathlib.Data.List.Count
import Mathlib.Logic.Function.Iterate

/-! Accumulators that add a value unless it equals the running total.

Such an accumulator depends on the order of its values and is changed by repeated values. When it is
not is characterised exactly: the nonzero values agree, and the start either equals their common
value or is a negative multiple of it that the values can make up (`Agrees`). -/
namespace MetaCG.Foundations
set_option autoImplicit false
set_option maxHeartbeats 250000
set_option maxRecDepth 120000

section
variable {M : Type} [AddCommGroup M] [DecidableEq M]

def addUnlessEqual (a b : M) : M := if a ≠ b then a + b else a

@[simp] theorem addUnlessEqual_self (a : M) : addUnlessEqual a a = a := by simp [addUnlessEqual]

@[simp] theorem addUnlessEqual_zero (a : M) : addUnlessEqual a 0 = a := by
  unfold addUnlessEqual
  split_ifs
  · rw [add_zero]
  · rfl

@[simp] theorem zero_addUnlessEqual (b : M) : addUnlessEqual 0 b = b := by
  unfold addUnlessEqual
  split_ifs with h
  · rw [zero_add]
  · exact not_not.mp h

theorem addUnlessEqual_eq_left_iff (a b : M) : addUnlessEqual a b = a ↔ b = 0 ∨ b = a := by
  unfold addUnlessEqual
  split_ifs with h
  · rw [add_eq_left]
    exact ⟨.inl, fun hb => hb.resolve_right (fun he => h he.symm)⟩
  · exact ⟨fun _ => .inr (not_not.mp h).symm, fun _ => rfl⟩

/-- Values that are zero or `c` act by their number of `c`s. -/
theorem foldl_addUnlessEqual_eq_iterate {c : M} (hc : c ≠ 0) (vs : List M) (h : ∀ v ∈ vs, v = 0 ∨ v = c) (t : M) :
    vs.foldl addUnlessEqual t = (fun x => addUnlessEqual x c)^[vs.count c] t := by
  induction vs generalizing t with
  | nil => rfl
  | cons v vs ih =>
    have hvs := ih (fun w hw => h w (List.mem_cons_of_mem v hw))
    rw [List.foldl_cons, hvs]
    rcases h v (List.mem_cons_self ..) with rfl | rfl
    · rw [addUnlessEqual_zero, List.count_cons_of_ne (Ne.symm hc)]
    · rw [List.count_cons_self, Function.iterate_succ_apply]

/-- Adding `c` again and again ends in `c` iff it starts there or passes zero on the way. -/
theorem iterate_addUnlessEqual_eq_iff (c : M) (m : ℕ) (t : M) :
    (fun x => addUnlessEqual x c)^[m] t = c ↔ t = c ∨ ∃ i < m, t + i • c = 0 := by
  induction m generalizing t with
  | zero => simp
  | succ m ih =>
    rw [Function.iterate_succ_apply, ih]
    by_cases htc : t = c
    · rw [htc, addUnlessEqual_self]
      exact ⟨fun _ => .inl rfl, fun _ => .inl rfl⟩
    · have hadd : addUnlessEqual t c = t + c := if_pos htc
      rw [hadd, add_eq_right]
      constructor
      · rintro (h0 | ⟨i, hi, hz⟩)
        · exact .inr ⟨0, by omega, by rw [h0, zero_nsmul, add_zero]⟩
        · exact .inr ⟨i + 1, by omega, by rw [succ_nsmul', ← add_assoc, hz]⟩
      · rintro (hc | ⟨i, hi, hz⟩)
        · exact absurd hc htc
        · cases i with
          | zero => exact .inl (by rwa [zero_nsmul, add_zero] at hz)
          | succ i => exact .inr ⟨i, by omega, by rwa [succ_nsmul', ← add_assoc] at hz⟩

/-- When the accumulation of `vs` from `t` is independent of order and repetition. -/
def Agrees (t : M) (vs : List M) : Prop :=
  (∀ v ∈ vs, v = 0) ∨ ∃ c, (∀ v ∈ vs, v = 0 ∨ v = c) ∧ (t = c ∨ ∃ i < vs.count c, t + i • c = 0)

/-- If no value changes the total any more, the values agree. -/
theorem agrees_of_stable {t : M} {vs : List M}
    (h : ∀ v ∈ vs, addUnlessEqual (vs.foldl addUnlessEqual t) v = vs.foldl addUnlessEqual t) : Agrees t vs := by
  by_cases hz : ∀ v ∈ vs, v = 0
  · exact .inl hz
  · push Not at hz
    obtain ⟨c, hc, hne⟩ := hz
    have htotal : c = vs.foldl addUnlessEqual t :=
      ((addUnlessEqual_eq_left_iff _ _).mp (h c hc)).resolve_left hne
    have hall : ∀ v ∈ vs, v = 0 ∨ v = c := by
      intro v hv
      rw [htotal]
      exact (addUnlessEqual_eq_left_iff _ _).mp (h v hv)
    refine .inr ⟨c, hall, ?_⟩
    rw [← iterate_addUnlessEqual_eq_iff, ← foldl_addUnlessEqual_eq_iterate hne vs hall]
    exact htotal.symm

/-- If the values agree, every order gives one total that no value changes. -/
theorem Agrees.stable {t : M} {vs : List M} (h : Agrees t vs) :
    ∃ total, (∀ vs' : List M, vs'.Perm vs → vs'.foldl addUnlessEqual t = total) ∧
      ∀ v ∈ vs, addUnlessEqual total v = total := by
  have hzero : ∀ {vs' : List M}, (∀ v ∈ vs', v = 0) → vs'.foldl addUnlessEqual t = t := by
    intro vs' hz
    induction vs' with
    | nil => rfl
    | cons v vs' ih =>
      rw [List.foldl_cons, hz v (List.mem_cons_self ..), addUnlessEqual_zero]
      exact ih (fun w hw => hz w (List.mem_cons_of_mem v hw))
  rcases h with hz | ⟨c, hall, hstart⟩
  · refine ⟨t, fun vs' hp => hzero (fun v hv => hz v (hp.mem_iff.mp hv)), fun v hv => ?_⟩
    rw [hz v hv, addUnlessEqual_zero]
  · by_cases hc : c = 0
    · have hz : ∀ v ∈ vs, v = 0 := fun v hv => (hall v hv).elim id (fun he => he.trans hc)
      refine ⟨t, fun vs' hp => hzero (fun v hv => hz v (hp.mem_iff.mp hv)), fun v hv => ?_⟩
      rw [hz v hv, addUnlessEqual_zero]
    · refine ⟨c, fun vs' hp => ?_, fun v hv => ?_⟩
      · rw [foldl_addUnlessEqual_eq_iterate hc vs' (fun v hv => hall v (hp.mem_iff.mp hv)), hp.count_eq,
          iterate_addUnlessEqual_eq_iff]
        exact hstart
      · rcases hall v hv with rfl | rfl
        · exact addUnlessEqual_zero c
        · exact addUnlessEqual_self v

end
end MetaCG.Foundations
