import Mathlib.Logic.Relation
import Mathlib.Order.Bounds.Basic

/-! Congruence closure with pending equations.

An element may have a prefix `o` under a member `m`; equal elements with prefixes under one member force
these prefixes to be equal. A unifier keeps a relation and, for its classes, some of the prefixes only.
It drops a prefix on the promise of an equation that is still to come: `HalfClosed` says that the
pending equations pay for all that was dropped, `Justified` that nothing is related without need. When
no equation is pending, the relation is the least one (`HalfClosed.isLeast`). -/
namespace MetaCG.Foundations
set_option autoImplicit false
set_option maxHeartbeats 250000
set_option maxRecDepth 120000

namespace Congruence
variable {α μ : Type}

/-- A partial equivalence that has `r o o'` whenever `r x y` and `imp x y o o'`. -/
structure ClosedUnder (imp : α → α → α → α → Prop) (r : α → α → Prop) : Prop where
  symm : ∀ {x y}, r x y → r y x
  trans : ∀ {x y z}, r x y → r y z → r x z
  imp : ∀ {x y o o'}, r x y → imp x y o o' → r o o'

/-- A closed relation that contains the equations `base`. -/
structure Closed (base : α → α → Prop) (imp : α → α → α → α → Prop) (r : α → α → Prop) : Prop
    extends ClosedUnder imp r where
  base : ∀ {x y}, base x y → r x y

theorem ClosedUnder.mono {imp imp' : α → α → α → α → Prop} {r : α → α → Prop} (h : ClosedUnder imp r)
    (himp : ∀ x y o o', imp' x y o o' → imp x y o o') : ClosedUnder imp' r :=
  ⟨h.symm, h.trans, fun hxy hi => h.imp hxy (himp _ _ _ _ hi)⟩

/-- The prefixes of `x` and `y` under one member. -/
def SharedMember (pre : α → μ → α → Prop) (x y o o' : α) : Prop := ∃ m, pre x m o ∧ pre y m o'

/-- What a unifier keeps: its relation and the prefixes of each element's class. -/
structure Table (α μ : Type) where
  rel : α → α → Prop
  stored : α → μ → α → Prop

/-- Equal once the pending equations are resolved. -/
def Joined (t : Table α μ) (pending : α → α → Prop) : α → α → Prop :=
  Relation.EqvGen fun x y => t.rel x y ∨ pending x y

namespace Joined
variable {t t' : Table α μ} {pending pending' : α → α → Prop} {x y z : α}

theorem of_rel (h : t.rel x y) : Joined t pending x y := .rel _ _ (.inl h)

theorem of_pending (h : pending x y) : Joined t pending x y := .rel _ _ (.inr h)

theorem refl (x : α) : Joined t pending x x := Relation.EqvGen.refl x

theorem symm (h : Joined t pending x y) : Joined t pending y x := Relation.EqvGen.symm _ _ h

theorem trans (h : Joined t pending x y) (h' : Joined t pending y z) : Joined t pending x z :=
  Relation.EqvGen.trans _ _ _ h h'

theorem of_joined (hrel : ∀ x y, t.rel x y → Joined t' pending' x y)
    (hpending : ∀ x y, pending x y → Joined t' pending' x y) (h : Joined t pending x y) : Joined t' pending' x y := by
  induction h with
  | rel x y h =>
    cases h with
    | inl h => exact hrel x y h
    | inr h => exact hpending x y h
  | refl x => exact refl x
  | symm x y _ ih => exact ih.symm
  | trans x y z _ _ ih ih' => exact ih.trans ih'

/-- Without pending equations only what is related is joined. -/
theorem eq_or_rel (hsymm : ∀ {x y}, t.rel x y → t.rel y x) (htrans : ∀ {x y z}, t.rel x y → t.rel y z → t.rel x z)
    (hnone : ∀ x y, pending x y → False) (h : Joined t pending x y) : x = y ∨ t.rel x y := by
  induction h with
  | rel x y h => exact .inr (h.resolve_right (hnone x y))
  | refl x => exact .inl rfl
  | symm x y _ ih => exact ih.imp Eq.symm hsymm
  | trans x y z _ _ ih ih' =>
    cases ih with
    | inl he => exact he ▸ ih'
    | inr h =>
      cases ih' with
      | inl he => exact .inr (he ▸ h)
      | inr h' => exact .inr (htrans h h')

end Joined

/-- The pending equations pay for everything the table lacks. -/
structure HalfClosed (base : α → α → Prop) (pre : α → μ → α → Prop) (t : Table α μ) (pending : α → α → Prop) : Prop where
  base : ∀ {x y}, base x y → Joined t pending x y
  cover : ∀ {x m o}, pre x m o → ∃ o', t.stored x m o' ∧ Joined t pending o' o
  agree : ∀ {x m o o'}, t.stored x m o → t.stored x m o' → Joined t pending o o'

/-- Everything in the table and every pending equation holds in `r`. -/
structure Justified (r : α → α → Prop) (pre : α → μ → α → Prop) (t : Table α μ) (pending : α → α → Prop) : Prop where
  rel : ∀ {x y}, t.rel x y → r x y
  pending : ∀ {x y}, pending x y → r x y
  stored : ∀ {x m o}, t.stored x m o → ∃ y, r x y ∧ pre y m o

section Rules
variable {base : α → α → Prop} {pre : α → μ → α → Prop} {t t' : Table α μ} {pending pending' : α → α → Prop}
  {r : α → α → Prop}

theorem HalfClosed.step (h : HalfClosed base pre t pending) (hj : ∀ x y, Joined t pending x y → Joined t' pending' x y)
    (hcover : ∀ x m o, t.stored x m o → ∃ o', t'.stored x m o' ∧ Joined t' pending' o' o)
    (hagree : ∀ x m o o', t'.stored x m o → t'.stored x m o' → Joined t' pending' o o') :
    HalfClosed base pre t' pending' where
  base hb := hj _ _ (h.base hb)
  cover hp := by
    obtain ⟨o₁, hs, ho₁⟩ := h.cover hp
    obtain ⟨o₂, hs', ho₂⟩ := hcover _ _ _ hs
    exact ⟨o₂, hs', ho₂.trans (hj _ _ ho₁)⟩
  agree := hagree _ _ _ _

/-- Other pending equations that join as much. -/
theorem HalfClosed.weaken (h : HalfClosed base pre t pending) (hp : ∀ x y, pending x y → Joined t pending' x y) :
    HalfClosed base pre t pending' := by
  have hj : ∀ x y, Joined t pending x y → Joined t pending' x y := fun x y =>
    Joined.of_joined (fun _ _ => Joined.of_rel) hp
  exact h.step hj (fun x m o hs => ⟨o, hs, .refl o⟩) fun x m o o' hs hs' => hj _ _ (h.agree hs hs')

/-- Other equations and other prefixes that the table pays for as well. -/
theorem HalfClosed.extend {base' : α → α → Prop} {pre' : α → μ → α → Prop} (h : HalfClosed base pre t pending)
    (hbase : ∀ x y, base' x y → Joined t pending x y)
    (hpre : ∀ x m o, pre' x m o → pre x m o ∨ ∃ o', t.stored x m o' ∧ Joined t pending o' o) :
    HalfClosed base' pre' t pending where
  base := hbase _ _
  cover hp := (hpre _ _ _ hp).elim h.cover id
  agree := h.agree

theorem Justified.weaken (h : Justified r pre t pending) (hp : ∀ x y, pending' x y → r x y) :
    Justified r pre t pending' := ⟨h.rel, hp _ _, h.stored⟩

/-- Once nothing is pending, the table's relation is closed. -/
theorem HalfClosed.closed (h : HalfClosed base pre t pending) (hnone : ∀ x y, pending x y → False)
    (hsymm : ∀ {x y}, t.rel x y → t.rel y x) (htrans : ∀ {x y z}, t.rel x y → t.rel y z → t.rel x z)
    (hbase : ∀ x y, base x y → t.rel x x) (hpre : ∀ x m o, pre x m o → t.rel o o)
    (hclass : ∀ x y m o, t.rel x y → t.stored x m o → t.stored y m o) : Closed base (SharedMember pre) t.rel where
  symm := hsymm
  trans := htrans
  base := by
    intro x y hb
    cases Joined.eq_or_rel hsymm htrans hnone (h.base hb) with
    | inl he => exact he ▸ hbase x y hb
    | inr h => exact h
  imp := by
    rintro x y o o' hxy ⟨m, hx, hy⟩
    obtain ⟨p, hp, hpo⟩ := h.cover hx
    obtain ⟨p', hp', hpo'⟩ := h.cover hy
    have hpp : Joined t pending p p' := h.agree (hclass x y m p hxy hp) hp'
    have hoo : Joined t pending o o' := hpo.symm.trans (hpp.trans hpo')
    cases Joined.eq_or_rel hsymm htrans hnone hoo with
    | inl he => exact he ▸ hpre x m o hx
    | inr h => exact h

end Rules

/-! ## Operations on the pending equations -/

/-- From `t` to `t'` the pending equations `eqs` are replaced by `eqs'`, whatever else is pending. -/
structure Reduces (eqs eqs' : List (α × α)) (t t' : Table α μ) : Prop where
  half : ∀ {base pre} {pending : α → α → Prop}, HalfClosed base pre t (fun x y => (x, y) ∈ eqs ∨ pending x y) →
    HalfClosed base pre t' (fun x y => (x, y) ∈ eqs' ∨ pending x y)
  just : ∀ {r pre} {pending : α → α → Prop}, ClosedUnder (SharedMember pre) r →
    Justified r pre t (fun x y => (x, y) ∈ eqs ∨ pending x y) → Justified r pre t' (fun x y => (x, y) ∈ eqs' ∨ pending x y)

namespace Reduces
variable {t t' t'' : Table α μ} {eqs eqs' eqs'' : List (α × α)}

theorem refl (eqs : List (α × α)) (t : Table α μ) : Reduces eqs eqs t t := ⟨id, fun _ => id⟩

theorem trans (h : Reduces eqs eqs' t t') (h' : Reduces eqs' eqs'' t' t'') : Reduces eqs eqs'' t t'' :=
  ⟨fun hh => h'.half (h.half hh), fun hr hj => h'.just hr (h.just hr hj)⟩

/-- Further equations wait while these are resolved. -/
theorem append (h : Reduces eqs eqs' t t') (more : List (α × α)) : Reduces (eqs ++ more) (eqs' ++ more) t t' where
  half hh := by
    have hnow := h.half (hh.weaken fun x y hp => .of_pending (by simpa [or_assoc] using hp))
    exact hnow.weaken fun x y hp => .of_pending (by simpa [or_assoc] using hp)
  just hr hj := by
    have hnow := h.just hr (hj.weaken fun x y hp => hj.pending (by simpa [or_assoc] using hp))
    exact hnow.weaken fun x y hp => hnow.pending (by simpa [or_assoc] using hp)

/-- An equation that holds already need not wait. -/
theorem drop {e : α × α} (h : t.rel e.1 e.2) (eqs : List (α × α)) : Reduces (e :: eqs) eqs t t where
  half hh := hh.weaken fun x y hp => by
    rcases hp with hp | hp
    · rcases List.mem_cons.mp hp with rfl | hp
      · exact .of_rel h
      · exact .of_pending (.inl hp)
    · exact .of_pending (.inr hp)
  just _ hj := hj.weaken fun _ _ hp => hj.pending (hp.imp_left (List.mem_cons_of_mem e))

end Reduces
end Congruence
end MetaCG.Foundations
