import Mathlib.Data.Finset.Dedup
import MetaCG.Fortran.Symbols

/-! The types of a file as a forest.

`getAbsoluteBaseSymbol` looks for the parent of a type among the types that are known when it is called, by its symbol. If every
type comes after the type that it extends, then what it finds for a type does not change any more. A type may be met several
times, as a definition and in the modules that are used, and its parent under other symbols. So an entry is what has a base, and
of the types above only the first entry counts. -/
namespace MetaCG.Fortran
open Foundations
set_option autoImplicit false
set_option maxHeartbeats 250000
set_option maxRecDepth 120000

variable {σ : Type} [DecidableEq σ]

/-- Every type has a symbol, and comes after its parent if that comes at all. -/
structure Ordered (types : List (TypeEntry σ)) : Prop where
  named : ∀ t ∈ types, ∃ a, t.typeSymbol = some a
  parents : ∀ pre t post, types = pre ++ t :: post → ∀ p, t.extendsFrom = some p →
    (∃ u ∈ types, u.typeSymbol = some p) → ∃ u ∈ pre, u.typeSymbol = some p

/-- The way up from the entry ends at the symbol. -/
def BaseOf (types : List (TypeEntry σ)) (t : TypeEntry σ) (r : σ) : Prop :=
  t.extendsFrom.elim (t.typeSymbol = some r) fun p => Forest.IsRoot (extendsOf types) p r

/-- The entry of the parent, which is the first one with its symbol. -/
def Above (types : List (TypeEntry σ)) (t u : TypeEntry σ) : Prop :=
  ∃ p, t.extendsFrom = some p ∧ types.find? (fun u => decide (u.typeSymbol = some p)) = some u

section
variable {types more : List (TypeEntry σ)} {t : TypeEntry σ} {a p r : σ}

omit [DecidableEq σ] in
theorem Ordered.prefix (h : Ordered (types ++ more)) : Ordered types where
  named u hu := h.named u (List.mem_append_left _ hu)
  parents pre u post heq p hp := by
    rintro ⟨v, hv, hvp⟩
    exact h.parents pre u (post ++ more) (by rw [heq]; simp) p hp ⟨v, List.mem_append_left _ hv, hvp⟩

theorem extendsOf_eq_some {x : Option σ} (h : extendsOf types a = some x) :
    ∃ t ∈ types, t.typeSymbol = some a ∧ t.extendsFrom = x := by
  obtain ⟨t, ht, hx⟩ := Option.map_eq_some_iff.mp h
  exact ⟨t, List.mem_of_find?_eq_some ht, by simpa using List.find?_some ht, hx⟩

theorem extendsOf_isSome : (extendsOf types a).isSome = true ↔ ∃ t ∈ types, t.typeSymbol = some a := by
  rw [extendsOf, Option.isSome_map, List.find?_isSome]
  simp

theorem extends_append (types more : List (TypeEntry σ)) : Forest.Extends (extendsOf types) (extendsOf (types ++ more)) := by
  intro a x hx
  obtain ⟨t, ht, rfl⟩ := Option.map_eq_some_iff.mp hx
  rw [extendsOf, List.find?_append, ht]
  rfl

/-- A parent that is not known when its child comes will not come. -/
theorem Ordered.unknown (h : Ordered (types ++ more)) (ht : t ∈ types) (hp : t.extendsFrom = some p)
    (hnone : extendsOf types p = none) : extendsOf (types ++ more) p = none := by
  obtain ⟨pre, post, heq⟩ := List.append_of_mem ht
  by_contra hsome
  obtain ⟨x, hx⟩ := Option.ne_none_iff_exists'.mp hsome
  have hknown := extendsOf_isSome.mp (Option.isSome_iff_exists.mpr ⟨x, hx⟩)
  obtain ⟨u, hu, hup⟩ := h.parents pre t (post ++ more) (by rw [heq]; simp) p hp hknown
  have hearly : (extendsOf types p).isSome = true := extendsOf_isSome.mpr ⟨u, heq ▸ List.mem_append_left _ hu, hup⟩
  rw [hnone] at hearly
  cases hearly

theorem Ordered.settled (h : Ordered (types ++ more)) : Forest.Settled (extendsOf types) (extendsOf (types ++ more)) := by
  intro a p hup hnone
  obtain ⟨t, ht, -, hp⟩ := extendsOf_eq_some hup
  exact h.unknown ht hp hnone

/-- The place of a type in the list; unknown types come first. -/
def place (types : List (TypeEntry σ)) (a : σ) : ℕ :=
  if (extendsOf types a).isSome then types.findIdx (fun t => decide (t.typeSymbol = some a)) + 1 else 0

theorem Ordered.rank (h : Ordered types) (hup : Forest.Up (extendsOf types) a p) : place types p < place types a := by
  have ha : place types a = types.findIdx (fun t => decide (t.typeSymbol = some a)) + 1 := by
    rw [place, hup, Option.isSome_some, if_pos rfl]
  rw [ha]
  unfold place
  split_ifs with hknown
  · obtain ⟨t, ht, hext⟩ := Option.map_eq_some_iff.mp hup
    obtain ⟨hta, pre, post, heq, hpre⟩ := List.find?_eq_some_iff_append.mp ht
    obtain ⟨u, hu, hup⟩ := h.parents pre t post heq p hext (extendsOf_isSome.mp hknown)
    have hafter : types.findIdx (fun t => decide (t.typeSymbol = some a)) = pre.length := by
      rw [heq, List.findIdx_append, List.findIdx_eq_length.mpr fun v hv => by simpa using hpre v hv, if_neg (Nat.lt_irrefl _),
        List.findIdx_cons, hta, cond_true, Nat.zero_add]
    have hbefore : types.findIdx (fun t => decide (t.typeSymbol = some p)) < pre.length := by
      have hlt := List.findIdx_lt_length_of_exists (p := fun t : TypeEntry σ => decide (t.typeSymbol = some p))
        ⟨u, hu, decide_eq_true hup⟩
      rw [heq, List.findIdx_append, if_pos hlt]
      exact hlt
    rw [hafter]
    exact Nat.succ_lt_succ hbefore
  · exact Nat.succ_pos _

theorem Ordered.exists_isRoot (h : Ordered types) (a : σ) : ∃ r, Forest.IsRoot (extendsOf types) a r :=
  Forest.exists_isRoot (place types) (fun _ _ => h.rank) a

/-- The types that extend another one are not more than the entries. -/
theorem climb_extendsOf : Forest.climb (extendsOf types) types.length a = some r ↔ Forest.IsRoot (extendsOf types) a r := by
  refine Forest.climb_eq_some_iff (types.filterMap TypeEntry.typeSymbol).toFinset (fun b p hup => ?_) ?_
  · obtain ⟨t, ht, hb, -⟩ := extendsOf_eq_some hup
    exact List.mem_toFinset.mpr (List.mem_filterMap.mpr ⟨t, ht, hb⟩)
  · exact (List.toFinset_card_le _).trans (List.length_filterMap_le _ _)

theorem BaseOf.unique {r' : σ} (h : BaseOf types t r) (h' : BaseOf types t r') : r = r' := by
  unfold BaseOf at h h'
  cases hp : t.extendsFrom with
  | none =>
    rw [hp] at h h'
    exact Option.some.inj (h.symm.trans h')
  | some p =>
    rw [hp] at h h'
    exact Forest.IsRoot.unique h h'

theorem Ordered.exists_baseOf (h : Ordered types) (ht : t ∈ types) : ∃ r, BaseOf types t r := by
  unfold BaseOf
  cases hp : t.extendsFrom with
  | none => exact h.named t ht
  | some p => exact h.exists_isRoot p

/-- The collector finds the base of a type that it knows. -/
theorem Ordered.getAbsoluteBase_eq (h : Ordered types) (ht : t ∈ types) :
    ∃ r, BaseOf types t r ∧ getAbsoluteBase types t = .ok (some r) := by
  obtain ⟨r, hr⟩ := h.exists_baseOf ht
  refine ⟨r, hr, ?_⟩
  unfold BaseOf at hr
  unfold getAbsoluteBase
  cases hp : t.extendsFrom with
  | none =>
    rw [hp, Option.elim_none] at hr
    dsimp only
    rw [hr]
  | some p =>
    rw [hp] at hr
    dsimp only
    rw [climb_extendsOf.mpr hr]

/-- More types do not change the base. -/
theorem BaseOf.extend (h : BaseOf types t r) (hord : Ordered (types ++ more)) (ht : t ∈ types) : BaseOf (types ++ more) t r := by
  unfold BaseOf at h ⊢
  cases hp : t.extendsFrom with
  | none =>
    rw [hp] at h
    exact h
  | some p =>
    rw [hp, Option.elim_some] at h
    rw [Option.elim_some]
    cases hknown : extendsOf types p with
    | some x => exact h.extends (extends_append types more) hord.settled (by rw [hknown, Option.isSome_some])
    | none =>
      have hgone : extendsOf (types ++ more) p = none := hord.unknown ht hp hknown
      have htop : ∀ {parent : σ → Option (Option σ)}, parent p = none → Forest.IsRoot parent p p := by
        intro parent hnone
        refine .of_top fun q hq => ?_
        rw [Forest.Up, hnone] at hq
        cases hq
      exact (htop hknown).unique h ▸ htop hgone

/-- An entry has the base of the one above. -/
theorem BaseOf.above {u : TypeEntry σ} (hup : Above types t u) : BaseOf types t r ↔ BaseOf types u r := by
  obtain ⟨p, hp, hu⟩ := hup
  have hsym : u.typeSymbol = some p := by simpa using List.find?_some hu
  have hext : extendsOf types p = some u.extendsFrom := by rw [extendsOf, hu, Option.map_some]
  unfold BaseOf
  rw [hp, Option.elim_some]
  cases hq : u.extendsFrom with
  | none =>
    have htop : Forest.IsRoot (extendsOf types) p p := .of_top fun q hup => by
      rw [Forest.Up, hext, hq] at hup
      cases hup
    rw [Option.elim_none, hsym, Option.some.injEq]
    exact ⟨fun hr => htop.unique hr, fun hr => hr ▸ htop⟩
  | some q => exact Forest.IsRoot.along (.single (hext.trans (congrArg some hq)))

theorem BaseOf.along {u : TypeEntry σ} (h : Relation.ReflTransGen (Above types) t u) : BaseOf types t r ↔ BaseOf types u r := by
  induction h with
  | refl => exact Iff.rfl
  | tail _ hup ih => exact ih.trans (BaseOf.above hup)

end
end MetaCG.Fortran
