import Mathlib.Data.Finset.Card
import Mathlib.Logic.Relation

/-! Forests that are known in part.

A partial function gives each known node its parent, or says that it has none. Climbing from a node ends at its root, unless
the way up runs in a circle. What is filed under roots stays where it is found as long as new nodes come after their
parents. -/
namespace MetaCG.Foundations.Forest
set_option autoImplicit false
set_option maxHeartbeats 250000
set_option maxRecDepth 120000

variable {α : Type} {parent parent' : α → Option (Option α)} {a b p r r' : α}

def Up (parent : α → Option (Option α)) (a p : α) : Prop := parent a = some (some p)

/-- The way up from `a` ends at `r`, which has no parent that is known. -/
def IsRoot (parent : α → Option (Option α)) (a r : α) : Prop := Relation.ReflTransGen (Up parent) a r ∧ ∀ p, ¬Up parent r p

/-- At most `fuel` steps up. -/
def climb (parent : α → Option (Option α)) : ℕ → α → Option α
  | fuel, a =>
    match parent a with
    | some (some p) =>
      match fuel with
      | 0 => none
      | fuel + 1 => climb parent fuel p
    | _ => some a

theorem Up.unique {q : α} (h : Up parent a p) (h' : Up parent a q) : p = q :=
  Option.some.inj (Option.some.inj (h.symm.trans h'))

theorem IsRoot.of_top (h : ∀ p, ¬Up parent a p) : IsRoot parent a a := ⟨.refl, h⟩

theorem IsRoot.of_up (h : Up parent a p) (hr : IsRoot parent a r) : IsRoot parent p r := by
  rcases hr.1.cases_head with rfl | ⟨q, hq, hrest⟩
  · exact absurd h (hr.2 p)
  · exact ⟨h.unique hq ▸ hrest, hr.2⟩

theorem IsRoot.up (h : Up parent a p) (hr : IsRoot parent p r) : IsRoot parent a r := ⟨.head h hr.1, hr.2⟩

theorem IsRoot.unique (h : IsRoot parent a r) (h' : IsRoot parent a r') : r = r' := by
  obtain ⟨hpath, htop⟩ := h
  induction hpath using Relation.ReflTransGen.head_induction_on with
  | refl =>
    rcases h'.1.cases_head with heq | ⟨q, hq, -⟩
    · exact heq
    · exact absurd hq (htop q)
  | head hup _ ih => exact ih (h'.of_up hup)

/-- Nodes on one way up have the same root. -/
theorem IsRoot.along (h : Relation.ReflTransGen (Up parent) a b) : IsRoot parent a r ↔ IsRoot parent b r := by
  induction h with
  | refl => exact Iff.rfl
  | tail _ hup ih => exact ih.trans ⟨fun hr => hr.of_up hup, fun hr => hr.up hup⟩

/-- A node on a circle has no root. -/
theorem IsRoot.not_circle (h : IsRoot parent a r) : ¬Relation.TransGen (Up parent) a a := by
  obtain ⟨hpath, htop⟩ := h
  induction hpath using Relation.ReflTransGen.head_induction_on with
  | refl =>
    intro hcircle
    obtain ⟨p, hp, -⟩ := Relation.TransGen.head'_iff.mp hcircle
    exact htop p hp
  | head hup _ ih =>
    intro hcircle
    obtain ⟨q, hq, hback⟩ := Relation.TransGen.head'_iff.mp hcircle
    have hsame := hup.unique hq
    subst hsame
    exact ih (.tail' hback hup)

theorem climb_isRoot {fuel : ℕ} (h : climb parent fuel a = some r) : IsRoot parent a r := by
  induction fuel generalizing a with
  | zero =>
    unfold climb at h
    split at h
    · cases h
    · next hnone =>
      cases h
      exact .of_top hnone
  | succ fuel ih =>
    unfold climb at h
    split at h
    · next p hp => exact (ih h).up hp
    · next hnone =>
      cases h
      exact .of_top hnone

/-- The number of nodes with a parent bounds the way up. -/
theorem climb_of_isRoot [DecidableEq α] (hr : IsRoot parent a r) (s : Finset α)
    (hs : ∀ b p, Relation.ReflTransGen (Up parent) a b → Up parent b p → b ∈ s) {fuel : ℕ} (hfuel : s.card ≤ fuel) :
    climb parent fuel a = some r := by
  induction fuel generalizing a s with
  | zero =>
    unfold climb
    split
    · next p hp =>
      have hmem := hs a p .refl hp
      rw [Finset.card_eq_zero.mp (Nat.le_zero.mp hfuel)] at hmem
      exact absurd hmem (Finset.notMem_empty a)
    · next hnone => exact congrArg some ((IsRoot.of_top hnone).unique hr)
  | succ k ih =>
    unfold climb
    split
    · next p hp =>
      have hp : Up parent a p := hp
      have hmem := hs a p .refl hp
      refine ih (hr.of_up hp) (s.erase a) (fun b q hb hq => ?_) ?_
      · refine Finset.mem_erase.mpr ⟨?_, hs b q (.head hp hb) hq⟩
        rintro rfl
        exact hr.not_circle (.head' hp hb)
      · rw [Finset.card_erase_of_mem hmem]
        omega
    · next hnone => exact congrArg some ((IsRoot.of_top hnone).unique hr)

/-- Climbing finds the root, if there is one. -/
theorem climb_eq_some_iff [DecidableEq α] (s : Finset α) (hs : ∀ b p, Up parent b p → b ∈ s) {fuel : ℕ}
    (hfuel : s.card ≤ fuel) : climb parent fuel a = some r ↔ IsRoot parent a r :=
  ⟨climb_isRoot, fun hr => climb_of_isRoot hr s (fun b p _ => hs b p) hfuel⟩

theorem exists_isRoot (rank : α → ℕ) (hrank : ∀ a p, Up parent a p → rank p < rank a) (a : α) : ∃ r, IsRoot parent a r := by
  induction hk : rank a using Nat.strong_induction_on generalizing a with
  | _ k ih =>
    by_cases hup : ∃ p, Up parent a p
    · obtain ⟨p, hp⟩ := hup
      obtain ⟨r, hr⟩ := ih (rank p) (hk ▸ hrank a p hp) p rfl
      exact ⟨r, hr.up hp⟩
    · exact ⟨a, .refl, fun p hp => hup ⟨p, hp⟩⟩

/-! ## More nodes -/

/-- The nodes that are known keep their parents. -/
def Extends (parent parent' : α → Option (Option α)) : Prop := ∀ a x, parent a = some x → parent' a = some x

/-- A parent that is not known stays unknown. -/
def Settled (parent parent' : α → Option (Option α)) : Prop := ∀ a p, Up parent a p → parent p = none → parent' p = none

/-- The root of a known node stays its root. -/
theorem IsRoot.extends (hext : Extends parent parent') (hset : Settled parent parent') (ha : (parent a).isSome = true)
    (h : IsRoot parent a r) : IsRoot parent' a r := by
  refine ⟨h.1.lift id fun b p hup => hext b (some p) hup, fun p hp => ?_⟩
  cases hr : parent r with
  | some x => exact h.2 p (by rw [Up, hr, ← hp, hext r x hr])
  | none =>
    obtain ⟨b, -, hup⟩ : ∃ b, Relation.ReflTransGen (Up parent) a b ∧ Up parent b r := by
      rcases h.1.cases_tail with rfl | hlast
      · rw [hr] at ha
        cases ha
      · exact hlast
    rw [Up, hset b r hup hr] at hp
    cases hp

end MetaCG.Foundations.Forest
