import Mathlib.Data.Finset.Max
import Mathlib.Data.Fintype.Card
import Mathlib.Data.Set.Finite.Lattice
import Mathlib.Logic.Relation

/-! Recursion along a relation that may have cycles.

A recursion that follows every step of a relation returns where the relation is accessible, which for finitely many
reachable elements means that no cycle is reachable. `Settles` is the value of a computation with enough fuel. -/
namespace MetaCG.Foundations
set_option autoImplicit false
set_option maxHeartbeats 250000
set_option maxRecDepth 120000

section
variable {α : Type} {R : α → α → Prop} {x y : α}

theorem not_transGen_of_acc (h : Acc (fun b a => R a b) x) : ¬Relation.TransGen R x x := by
  induction h with
  | intro x _ ih =>
    intro hcycle
    obtain ⟨b, hb, hback⟩ := Relation.TransGen.head'_iff.mp hcycle
    exact ih b hb (Relation.TransGen.tail' hback hb)

theorem acc_of_reflTransGen (h : Acc (fun b a => R a b) x) (hxy : Relation.ReflTransGen R x y) :
    Acc (fun b a => R a b) y := by
  induction hxy with
  | refl => exact h
  | tail _ hstep ih => exact ih.inv hstep

/-- Descending from `x` ends exactly if no element that `x` reaches lies on a cycle. -/
theorem acc_iff_acyclic (hfin : {y | Relation.ReflTransGen R x y}.Finite) :
    Acc (fun b a => R a b) x ↔ ∀ y, Relation.ReflTransGen R x y → ¬Relation.TransGen R y y := by
  refine ⟨fun h y hxy => not_transGen_of_acc (acc_of_reflTransGen h hxy), fun hacyclic => ?_⟩
  let T := {y // Relation.ReflTransGen R x y}
  have hT : Finite T := hfin
  let S : T → T → Prop := fun b a => Relation.TransGen R a.1 b.1
  have htrans : IsTrans T S := ⟨fun _ _ _ hab hbc => hbc.trans hab⟩
  have hirrefl : Std.Irrefl S := ⟨fun a => hacyclic a.1 a.2⟩
  have hwf : WellFounded S := Finite.wellFounded_of_trans_of_irrefl S
  have key : ∀ a : T, Acc (fun b a => R a b) a.1 := by
    intro a
    induction a using hwf.induction with
    | _ a ih => exact ⟨a.1, fun b hb => ih ⟨b, a.2.tail hb⟩ (.single hb)⟩
  exact key ⟨x, .refl⟩

end

/-! ## Fuel -/

/-- With enough fuel the value is `a`. -/
def Settles {α : Type} (f : ℕ → α) (a : α) : Prop := ∃ bound, ∀ fuel, bound ≤ fuel → f fuel = a

section
variable {α β ε σ : Type}

theorem Settles.const (a : α) : Settles (fun _ => a) a := ⟨0, fun _ _ => rfl⟩

theorem Settles.unique {f : ℕ → α} {a b : α} (ha : Settles f a) (hb : Settles f b) : a = b := by
  obtain ⟨m, hm⟩ := ha
  obtain ⟨n, hn⟩ := hb
  rw [← hm (max m n) (le_max_left ..), ← hn (max m n) (le_max_right ..)]

theorem Settles.succ {f : ℕ → α} {a : α} (h : Settles (fun fuel => f (fuel + 1)) a) : Settles f a := by
  obtain ⟨n, hn⟩ := h
  refine ⟨n + 1, fun fuel hfuel => ?_⟩
  obtain ⟨k, rfl⟩ := Nat.exists_eq_add_of_le' hfuel
  exact hn (k + n) (Nat.le_add_left ..)

/-- Enough fuel for each element of a list is enough for all of them. -/
theorem exists_bound {P : ℕ → α → Prop} {l : List α} (h : ∀ a ∈ l, ∃ bound, ∀ fuel, bound ≤ fuel → P fuel a) :
    ∃ bound, ∀ fuel, bound ≤ fuel → ∀ a ∈ l, P fuel a := by
  induction l with
  | nil => exact ⟨0, fun _ _ a ha => absurd ha List.not_mem_nil⟩
  | cons a l ih =>
    obtain ⟨m, hm⟩ := h a (List.mem_cons_self ..)
    obtain ⟨n, hn⟩ := ih fun b hb => h b (List.mem_cons_of_mem a hb)
    refine ⟨max m n, fun fuel hfuel b hb => ?_⟩
    rcases List.mem_cons.mp hb with rfl | hb
    · exact hm fuel ((le_max_left ..).trans hfuel)
    · exact hn fuel ((le_max_right ..).trans hfuel) b hb

/-- A loop settles if its rounds do. -/
theorem settles_foldlM {f : ℕ → σ → α → Except ε σ} {J : List α → σ → Prop} {l : List α} {s : σ} (h₀ : J [] s)
    (hstep : ∀ pre a t, pre ++ [a] <+: l → J pre t → ∃ t', Settles (fun fuel => f fuel t a) (.ok t') ∧ J (pre ++ [a]) t') :
    ∃ s', Settles (fun fuel => l.foldlM (f fuel) s) (.ok s') ∧ J l s' := by
  have key : ∀ (post pre : List α) (t : σ), pre ++ post = l → J pre t →
      ∃ s', Settles (fun fuel => post.foldlM (f fuel) t) (.ok s') ∧ J l s' := by
    intro post
    induction post with
    | nil =>
      intro pre t hl ht
      rw [List.append_nil] at hl
      subst hl
      exact ⟨t, .const _, ht⟩
    | cons a post ih =>
      intro pre t hl ht
      have hl' : (pre ++ [a]) ++ post = l := by rw [List.append_assoc, List.singleton_append, hl]
      obtain ⟨t', ⟨m, hm⟩, ht'⟩ := hstep pre a t ⟨post, hl'⟩ ht
      obtain ⟨s', ⟨n, hn⟩, hs'⟩ := ih (pre ++ [a]) t' hl' ht'
      refine ⟨s', ⟨max m n, fun fuel hfuel => ?_⟩, hs'⟩
      change (a :: post).foldlM (f fuel) t = _
      have hround : f fuel t a = .ok t' := hm fuel ((le_max_left ..).trans hfuel)
      rw [List.foldlM_cons, hround]
      exact hn fuel ((le_max_right ..).trans hfuel)
  exact key l [] s rfl h₀

/-- With enough fuel the computation comes to an end, which is not `out`, and what it returns is in `P`. -/
def Ends (out : ε) (P : α → Prop) (f : ℕ → Except ε α) : Prop := ∃ r, Settles f r ∧ r ≠ .error out ∧ ∀ a, r = .ok a → P a

theorem Ends.const {out : ε} {x : Except ε α} (hx : x ≠ .error out) : Ends out (fun a => x = .ok a) fun _ => x :=
  ⟨x, .const x, hx, fun _ => id⟩

theorem Ends.pure {out : ε} {P : α → Prop} {a : α} (ha : P a) : Ends out P fun _ => .ok a :=
  ⟨.ok a, .const _, fun h => (by cases h), fun b hb => (by cases hb; exact ha)⟩

theorem Ends.throw {out e : ε} (P : α → Prop) (he : e ≠ out) : Ends out P fun _ => .error e :=
  ⟨.error e, .const _, fun h => he (by cases h; rfl), fun b hb => (by cases hb)⟩

theorem Ends.mono {out : ε} {P Q : α → Prop} {f : ℕ → Except ε α} (h : Ends out P f) (hPQ : ∀ a, P a → Q a) : Ends out Q f := by
  obtain ⟨r, hr, hout, hP⟩ := h
  exact ⟨r, hr, hout, fun a ha => hPQ a (hP a ha)⟩

/-- What holds of every value that is returned holds of the last one. -/
theorem Ends.of_ok {out : ε} {P Q : α → Prop} {f : ℕ → Except ε α} (h : Ends out P f) (hQ : ∀ fuel a, f fuel = .ok a → Q a) :
    Ends out Q f := by
  obtain ⟨r, ⟨bound, hr⟩, hout, -⟩ := h
  exact ⟨r, ⟨bound, hr⟩, hout, fun a ha => hQ bound a ((hr bound le_rfl).trans ha)⟩

theorem Ends.succ {out : ε} {P : α → Prop} {f : ℕ → Except ε α} (h : Ends out P fun fuel => f (fuel + 1)) : Ends out P f := by
  obtain ⟨r, hr, hend⟩ := h
  exact ⟨r, hr.succ, hend⟩

theorem Ends.bind {out : ε} {P : α → Prop} {Q : β → Prop} {f : ℕ → Except ε α} {g : ℕ → α → Except ε β} (hf : Ends out P f)
    (hg : ∀ a, P a → Ends out Q fun fuel => g fuel a) : Ends out Q fun fuel => f fuel >>= g fuel := by
  obtain ⟨r, ⟨m, hm⟩, hout, hP⟩ := hf
  cases r with
  | error e =>
    refine ⟨.error e, ⟨m, fun fuel hfuel => ?_⟩, fun he => hout ?_, fun b hb => (by cases hb)⟩
    · change f fuel >>= g fuel = _
      rw [hm fuel hfuel]
      rfl
    · cases he
      rfl
  | ok a =>
    obtain ⟨r', ⟨n, hn⟩, hend⟩ := hg a (hP a rfl)
    refine ⟨r', ⟨max m n, fun fuel hfuel => ?_⟩, hend⟩
    change f fuel >>= g fuel = _
    rw [hm fuel ((le_max_left ..).trans hfuel)]
    exact hn fuel ((le_max_right ..).trans hfuel)

theorem Ends.foldlM {out : ε} {J : σ → Prop} {f : ℕ → σ → α → Except ε σ} {l : List α} {s : σ} (hs : J s)
    (hf : ∀ s, J s → ∀ a ∈ l, Ends out J fun fuel => f fuel s a) : Ends out J fun fuel => l.foldlM (f fuel) s := by
  induction l generalizing s with
  | nil => exact .pure hs
  | cons a l ih =>
    simp only [List.foldlM_cons]
    exact (hf s hs a (List.mem_cons_self ..)).bind fun t ht => ih ht fun u hu b hb => hf u hu b (List.mem_cons_of_mem a hb)

end
end MetaCG.Foundations
