import MetaCG.Foundations.Descent
import MetaCG.Tools.CGValidate

/-! The recursion of `getAllOverriddenFunctions`.

What it returns is exact, and it returns exactly when no function that it meets lies on a cycle. -/
namespace MetaCG.CGValidate
open Foundations
set_option autoImplicit false
set_option maxHeartbeats 250000
set_option maxRecDepth 120000

/-- An override step between two functions of the graph. -/
def Step (cg : CG) (a b : String) : Prop := ∃ n, cg.find a = some n ∧ b ∈ n.overrides ∧ (cg.find b).isSome = true

/-- `x` is reached from `baseFn` by one or more steps through functions of the graph. -/
def Overridden (cg : CG) (baseFn : Node) (x : String) : Prop :=
  ∃ o ∈ baseFn.overrides, (cg.find o).isSome = true ∧ Relation.ReflTransGen (Step cg) o x

section
variable {cg : CG} {fuel : ℕ}

theorem overridden_iff {x a : String} {n : Node} (h : cg.find a = some n) :
    Overridden cg n x ↔ Relation.TransGen (Step cg) a x := by
  rw [Relation.TransGen.head'_iff]
  constructor
  · rintro ⟨o, ho, hpresent, hchain⟩
    exact ⟨o, ⟨n, h, ho, hpresent⟩, hchain⟩
  · rintro ⟨o, ⟨m, hm, ho, hpresent⟩, hchain⟩
    rw [h] at hm
    cases hm
    exact ⟨o, ho, hpresent, hchain⟩

/-! ## One call -/

theorem mem_addOverridden {visit : Node → Option (Finset String)} {A S : Finset String} {o : String}
    (h : addOverridden cg visit A o = some S) (x : String) :
    x ∈ S ↔ x ∈ A ∨ ∃ n S', cg.find o = some n ∧ visit n = some S' ∧ (x = o ∨ x ∈ S') := by
  unfold addOverridden at h
  cases hn : cg.find o with
  | none =>
    rw [hn] at h
    cases h
    simp
  | some n =>
    rw [hn] at h
    obtain ⟨S', hS', rfl⟩ := Option.map_eq_some_iff.mp h
    rw [Finset.mem_union, Finset.mem_insert]
    constructor
    · rintro ((rfl | hx) | hx)
      · exact .inr ⟨n, S', rfl, hS', .inl rfl⟩
      · exact .inl hx
      · exact .inr ⟨n, S', rfl, hS', .inr hx⟩
    · rintro (hx | ⟨m, T, hm, hT, hx⟩)
      · exact .inl (.inr hx)
      · cases hm
        rw [hS'] at hT
        cases hT
        exact hx.elim (fun hx => .inl (.inl hx)) .inr

theorem mem_foldlM_addOverridden {visit : Node → Option (Finset String)} {overrides : List String} {A S : Finset String}
    (h : overrides.foldlM (addOverridden cg visit) A = some S) (x : String) :
    x ∈ S ↔ x ∈ A ∨ ∃ o ∈ overrides, ∃ n S', cg.find o = some n ∧ visit n = some S' ∧ (x = o ∨ x ∈ S') := by
  induction overrides generalizing A with
  | nil =>
    cases h
    simp
  | cons o overrides ih =>
    rw [List.foldlM_cons] at h
    obtain ⟨B, hB, hrest⟩ := Option.bind_eq_some_iff.mp h
    rw [ih hrest, mem_addOverridden hB]
    simp only [List.mem_cons, exists_eq_or_imp, or_assoc]

theorem isSome_foldlM_addOverridden {visit : Node → Option (Finset String)} {overrides : List String} {A : Finset String} :
    (overrides.foldlM (addOverridden cg visit) A).isSome = true ↔
      ∀ o ∈ overrides, ∀ n, cg.find o = some n → (visit n).isSome = true := by
  induction overrides generalizing A with
  | nil => simp
  | cons o overrides ih =>
    rw [List.foldlM_cons, List.forall_mem_cons]
    have hround : (addOverridden cg visit A o).isSome = true ↔ ∀ n, cg.find o = some n → (visit n).isSome = true := by
      unfold addOverridden
      cases cg.find o <;> simp
    rw [← hround]
    cases addOverridden cg visit A o with
    | none => simp
    | some B =>
      rw [Option.isSome_some, eq_self, true_and]
      exact ih

/-- What the recursion returns is exact. -/
theorem mem_getAllOverriddenFunctions {baseFn : Node} {S : Finset String}
    (h : getAllOverriddenFunctions cg fuel baseFn = some S) (x : String) : x ∈ S ↔ Overridden cg baseFn x := by
  induction fuel generalizing baseFn S x with
  | zero => cases h
  | succ fuel ih =>
    rw [mem_foldlM_addOverridden h, or_iff_right (Finset.notMem_empty x)]
    refine exists_congr fun o => and_congr_right fun ho => ?_
    constructor
    · rintro ⟨n, S', hn, hS', hx⟩
      rw [Option.isSome_iff_exists]
      refine ⟨⟨n, hn⟩, ?_⟩
      rcases hx with rfl | hx
      · exact .refl
      · exact ((overridden_iff hn).mp ((ih hS' x).mp hx)).to_reflTransGen
    · rintro ⟨hpresent, hchain⟩
      obtain ⟨n, hn⟩ := Option.isSome_iff_exists.mp hpresent
      obtain ⟨S', hS'⟩ := Option.isSome_iff_exists.mp
        (isSome_foldlM_addOverridden.mp (Option.isSome_of_mem h) o ho n hn)
      refine ⟨n, S', hn, hS', ?_⟩
      rcases Relation.reflTransGen_iff_eq_or_transGen.mp hchain with hx | hchain
      · exact .inl hx
      · exact .inr ((ih hS' x).mpr ((overridden_iff hn).mpr hchain))

/-! ## Termination -/

/-- A function on which the recursion returns reaches no cycle. -/
theorem acc_of_returns {a : String} {n : Node} (hn : cg.find a = some n)
    (h : (getAllOverriddenFunctions cg fuel n).isSome = true) : Acc (fun b a => Step cg a b) a := by
  induction fuel generalizing a n with
  | zero => cases h
  | succ fuel ih =>
    refine ⟨a, fun b ⟨m, hm, hb, hpresent⟩ => ?_⟩
    rw [hn] at hm
    cases hm
    obtain ⟨k, hk⟩ := Option.isSome_iff_exists.mp hpresent
    exact ih hk (isSome_foldlM_addOverridden.mp h b hb k hk)

/-- Enough fuel for the overridden functions is enough for the function itself. -/
theorem returns_of_overrides {baseFn : Node} (h : ∀ o ∈ baseFn.overrides, ∃ bound, ∀ fuel, bound ≤ fuel →
      ∀ n, cg.find o = some n → (getAllOverriddenFunctions cg fuel n).isSome = true) :
    ∃ bound, ∀ fuel, bound ≤ fuel → (getAllOverriddenFunctions cg fuel baseFn).isSome = true := by
  obtain ⟨bound, hbound⟩ := exists_bound h
  refine ⟨bound + 1, fun fuel hfuel => ?_⟩
  obtain ⟨k, rfl⟩ := Nat.exists_eq_add_of_le' hfuel
  exact isSome_foldlM_addOverridden.mpr (hbound (k + bound) (Nat.le_add_left ..))

theorem returns_of_acc {a : String} (h : Acc (fun b a => Step cg a b) a) :
    ∃ bound, ∀ fuel, bound ≤ fuel → ∀ n, cg.find a = some n → (getAllOverriddenFunctions cg fuel n).isSome = true := by
  induction h with
  | intro a _ ih =>
    cases hn : cg.find a with
    | none => exact ⟨0, fun _ _ n hcontra => by cases hcontra⟩
    | some n =>
      have hreturns : ∃ bound, ∀ fuel, bound ≤ fuel → (getAllOverriddenFunctions cg fuel n).isSome = true := by
        refine returns_of_overrides fun o ho => ?_
        cases hpresent : cg.find o with
        | none => exact ⟨0, fun _ _ m hcontra => by cases hcontra⟩
        | some m =>
          obtain ⟨bound, hbound⟩ := ih o ⟨n, hn, ho, Option.isSome_of_mem hpresent⟩
          refine ⟨bound, fun fuel hfuel k hk => ?_⟩
          cases hk
          exact hbound fuel hfuel m hpresent
      obtain ⟨bound, hbound⟩ := hreturns
      refine ⟨bound, fun fuel hfuel m hm => ?_⟩
      cases hm
      exact hbound fuel hfuel

theorem finite_reached (cg : CG) (o : String) : {y | Relation.ReflTransGen (Step cg) o y}.Finite := by
  refine ((o :: cg.entries.map Prod.fst).toFinset.finite_toSet).subset fun y hy => ?_
  rw [Finset.mem_coe, List.mem_toFinset, List.mem_cons]
  cases hy with
  | refl => exact .inl rfl
  | tail _ hstep =>
    obtain ⟨-, -, -, hpresent⟩ := hstep
    obtain ⟨n, hn⟩ := Option.isSome_iff_exists.mp hpresent
    exact .inr (List.mem_map.mpr ⟨(y, n), OMap.mem_entries.mpr hn, rfl⟩)

/-- The recursion returns with enough fuel. -/
theorem settles_iff_returns {baseFn : Node} :
    (∃ S, Settles (fun fuel => getAllOverriddenFunctions cg fuel baseFn) (some S)) ↔
      ∃ bound, ∀ fuel, bound ≤ fuel → (getAllOverriddenFunctions cg fuel baseFn).isSome = true := by
  constructor
  · rintro ⟨S, bound, hbound⟩
    exact ⟨bound, fun fuel hfuel => Option.isSome_of_mem (hbound fuel hfuel)⟩
  · rintro ⟨bound, hbound⟩
    obtain ⟨S, hS⟩ := Option.isSome_iff_exists.mp (hbound bound le_rfl)
    refine ⟨S, bound, fun fuel hfuel => ?_⟩
    obtain ⟨T, hT⟩ := Option.isSome_iff_exists.mp (hbound fuel hfuel)
    have hsame : T = S := Finset.ext fun x =>
      (mem_getAllOverriddenFunctions hT x).trans (mem_getAllOverriddenFunctions hS x).symm
    exact hT.trans (congrArg some hsame)

theorem returns_iff_acc {baseFn : Node} :
    (∃ bound, ∀ fuel, bound ≤ fuel → (getAllOverriddenFunctions cg fuel baseFn).isSome = true) ↔
      ∀ o ∈ baseFn.overrides, (cg.find o).isSome = true → Acc (fun b a => Step cg a b) o := by
  constructor
  · rintro ⟨bound, hbound⟩ o ho hpresent
    obtain ⟨n, hn⟩ := Option.isSome_iff_exists.mp hpresent
    exact acc_of_returns hn (isSome_foldlM_addOverridden.mp (hbound (bound + 1) (Nat.le_succ bound)) o ho n hn)
  · intro hacc
    refine returns_of_overrides fun o ho => ?_
    cases hpresent : cg.find o with
    | none => exact ⟨0, fun _ _ n hcontra => by cases hcontra⟩
    | some n =>
      obtain ⟨bound, hbound⟩ := returns_of_acc (hacc o ho (Option.isSome_of_mem hpresent))
      refine ⟨bound, fun fuel hfuel k hk => ?_⟩
      cases hk
      exact hbound fuel hfuel n hpresent

/-! ## The recursion as a whole -/

/-- The recursion from `baseFn` returns exactly the overridden functions. -/
def ReturnsOverridden (cg : CG) (baseFn : Node) : Prop :=
  ∃ S, Settles (fun fuel => getAllOverriddenFunctions cg fuel baseFn) (some S) ∧ ∀ x, x ∈ S ↔ Overridden cg baseFn x

theorem returnsOverridden_iff_acc (baseFn : Node) :
    ReturnsOverridden cg baseFn ↔ ∀ o ∈ baseFn.overrides, (cg.find o).isSome = true → Acc (fun b a => Step cg a b) o := by
  rw [← returns_iff_acc, ← settles_iff_returns]
  refine exists_congr fun S => and_iff_left_of_imp fun hS => ?_
  obtain ⟨bound, hbound⟩ := hS
  exact mem_getAllOverriddenFunctions (hbound bound le_rfl)

/-- It does so exactly if no overridden function lies on a cycle of the override data. -/
theorem returnsOverridden_iff (cg : CG) (baseFn : Node) :
    ReturnsOverridden cg baseFn ↔ ∀ x, Overridden cg baseFn x → ¬Relation.TransGen (Step cg) x x := by
  rw [returnsOverridden_iff_acc]
  constructor
  · rintro hacc x ⟨o, ho, hpresent, hchain⟩
    exact (acc_iff_acyclic (finite_reached cg o)).mp (hacc o ho hpresent) x hchain
  · intro hacyclic o ho hpresent
    exact (acc_iff_acyclic (finite_reached cg o)).mpr fun x hchain => hacyclic x ⟨o, ho, hpresent, hchain⟩

/-! ### Two functions that override each other -/

def overriding (overrides : List String) : Node := ⟨∅, ∅, overrides, some true, none⟩

def cyclicGraph : CG := (OMap.empty.insert "f" (overriding ["g"])).insert "g" (overriding ["f"])

theorem not_returnsOverridden_cyclicGraph : ¬ReturnsOverridden cyclicGraph (overriding ["g"]) := by
  have hfg : Step cyclicGraph "f" "g" := ⟨overriding ["g"], by decide, by decide, by decide⟩
  have hgf : Step cyclicGraph "g" "f" := ⟨overriding ["f"], by decide, by decide, by decide⟩
  intro hreturns
  have hacc := (returnsOverridden_iff_acc _).mp hreturns "g" (List.mem_singleton_self "g") (by decide)
  exact not_transGen_of_acc hacc ((Relation.TransGen.single hgf).tail hfg)

end
end MetaCG.CGValidate
