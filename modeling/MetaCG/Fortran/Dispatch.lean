import MetaCG.Fortran.WellNested

/-! Calls of type-bound procedures.

What a call `v % component` runs depends on the type that `v` has at run time, which extends the declared one. The collector
adds a call for each procedure that is bound to the name in the family of the declared type. It goes up from a type only as long
as the parent has been met under the very symbol that is extended: a parent that is only referred to, as one from another module
is, ends the way and is the base. -/
namespace MetaCG.Fortran
open Foundations
set_option autoImplicit false
set_option maxHeartbeats 250000
set_option maxRecDepth 120000

section
variable {σ : Type} [DecidableEq σ] [Fintype σ] (tbl : SymbolTable σ)

/-- The bases of the entries are one symbol, once associations are resolved. -/
def Declared.Related (d : Declared σ) (t u : TypeEntry σ) : Prop :=
  ∃ r s, BaseOf d.types t r ∧ BaseOf d.types u s ∧ baseKey tbl r = baseKey tbl s

/-- The procedure `p` runs for the name `n` if the variable is of the type of the entry: the entry binds it, or the first one
above that binds the name does. -/
inductive Declared.Runs (d : Declared σ) (n : String) : TypeEntry σ → σ → Prop
  | own {t : TypeEntry σ} {p : σ} : (t, n, p) ∈ d.bindings → Runs d n t p
  | inherited {t u : TypeEntry σ} {p : σ} : (∀ q, (t, n, q) ∉ d.bindings) → Above d.types t u → Runs d n u p → Runs d n t p

end

section
variable {σ : Type} [DecidableEq σ] [Fintype σ] {tbl : SymbolTable σ} {opts : Settings} {st st' : State σ} {d : Declared σ}

omit [Fintype σ] in
theorem Declared.Runs.bound {n : String} {t : TypeEntry σ} {p : σ} (h : d.Runs n t p) :
    ∃ u, Relation.ReflTransGen (Above d.types) t u ∧ (u, n, p) ∈ d.bindings := by
  induction h with
  | own hbind => exact ⟨_, .refl, hbind⟩
  | inherited _ hup _ ih =>
    obtain ⟨u, hpath, hbind⟩ := ih
    exact ⟨u, .head hup hpath, hbind⟩

theorem Declared.Related.above {t u w : TypeEntry σ} (h : d.Related tbl t u)
    (hpath : Relation.ReflTransGen (Above d.types) u w) : d.Related tbl t w := by
  obtain ⟨r, s, hr, hs, heq⟩ := h
  exact ⟨r, s, hr, (BaseOf.along hpath).mp hs, heq⟩

/-- The table has what the family of a type declares under the base of the type. -/
theorem Filed.family {κ β : Type} {log : List (TypeEntry σ × κ × β)} {table : Option σ → κ → List β}
    (h : Filed tbl d.types log table) {t : TypeEntry σ} {r : σ} (hr : BaseOf d.types t r) (k : κ) (v : β) :
    v ∈ table (baseKey tbl r) k ↔ ∃ u, d.Related tbl t u ∧ (u, k, v) ∈ log := by
  refine (h (baseKey tbl r) k v).trans (exists_congr fun u => ?_)
  constructor
  · rintro ⟨s, he, hs, hkey⟩
    exact ⟨⟨r, s, hr, hs, hkey.symm⟩, he⟩
  · rintro ⟨⟨r', s, hr', hs, hkey⟩, he⟩
    exact ⟨s, he, hs, hkey.symm.trans (congrArg _ (hr'.unique hr))⟩

end

end MetaCG.Fortran
