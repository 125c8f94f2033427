import Mathlib.Data.List.Basic
import Mathlib.Data.List.Infix

/-! Loops that may throw.

The outcome of a fallible state change is an `Except (ε × σ) σ`: a new state, or an error together
with the state it leaves behind.
The rules below carry an invariant through `List.foldlM`: through both outcomes
(`final_foldlM`), through successful runs with the processed prefix at hand (`foldlM_ok_inv`),
and through runs that are shown to succeed (`foldlM_total`). -/
namespace MetaCG.Foundations
set_option autoImplicit false
set_option maxHeartbeats 250000
set_option maxRecDepth 120000

namespace Outcome
variable {ε σ α : Type}

/-- The state left behind, whether the change succeeded or threw. -/
def final : Except (ε × σ) σ → σ
  | .ok s => s
  | .error (_, s) => s

@[simp] theorem final_ok (s : σ) : final (.ok s : Except (ε × σ) σ) = s := rfl

@[simp] theorem final_error (e : ε) (s : σ) : final (.error (e, s) : Except (ε × σ) σ) = s := rfl

/-- Run a computation that cannot change the state; on an error the state stays as it is. -/
def guard (s : σ) (x : Except ε α) (k : α → Except (ε × σ) σ) : Except (ε × σ) σ :=
  match x with
  | .ok a => k a
  | .error e => .error (e, s)

@[simp] theorem guard_ok (s : σ) (a : α) (k : α → Except (ε × σ) σ) : guard s (.ok a) k = k a := rfl

@[simp] theorem guard_error (s : σ) (e : ε) (k : α → Except (ε × σ) σ) :
    guard s (.error e) k = .error (e, s) := rfl

theorem guard_eq_ok {s s' : σ} {x : Except ε α} {k : α → Except (ε × σ) σ}
    (h : guard s x k = .ok s') : ∃ a, x = .ok a ∧ k a = .ok s' := by
  cases x with
  | error e => cases h
  | ok a => exact ⟨a, rfl, h⟩

theorem final_guard {I : σ → Prop} {s : σ} {x : Except ε α} {k : α → Except (ε × σ) σ}
    (hs : I s) (hk : ∀ a, x = .ok a → I (final (k a))) : I (final (guard s x k)) := by
  cases x with
  | error e => exact hs
  | ok a => exact hk a rfl

theorem final_bind {I : σ → Prop} {x : Except (ε × σ) σ} {f : σ → Except (ε × σ) σ}
    (hx : I (final x)) (hf : ∀ s, I s → I (final (f s))) : I (final (x >>= f)) := by
  cases x with
  | error e => exact hx
  | ok s => exact hf s hx

theorem final_foldlM {I : σ → Prop} {f : σ → α → Except (ε × σ) σ}
    (hstep : ∀ s a, I s → I (final (f s a))) (l : List α) (s : σ) (hs : I s) :
    I (final (l.foldlM f s)) := by
  induction l generalizing s with
  | nil => exact hs
  | cons a l ih =>
    rw [List.foldlM_cons]
    exact final_bind (hstep s a hs) (fun s' hs' => ih s' hs')

end Outcome

section Loops
variable {ε σ α : Type}

theorem foldlM_ok_inv {f : σ → α → Except ε σ} {J : List α → σ → Prop} {l : List α} {s s' : σ}
    (h0 : J [] s)
    (hstep : ∀ pre a t t', pre ++ [a] <+: l → J pre t → f t a = .ok t' → J (pre ++ [a]) t')
    (h : l.foldlM f s = .ok s') : J l s' := by
  have key : ∀ (post pre : List α) (t : σ), pre ++ post = l → J pre t →
      post.foldlM f t = .ok s' → J l s' := by
    intro post
    induction post with
    | nil =>
      intro pre t hl ht hf
      rw [List.append_nil] at hl
      subst hl
      cases hf
      exact ht
    | cons a post ih =>
      intro pre t hl ht hf
      rw [List.foldlM_cons] at hf
      cases hfa : f t a with
      | error e => rw [hfa] at hf; cases hf
      | ok t' =>
        rw [hfa] at hf
        have hl' : (pre ++ [a]) ++ post = l := by rw [List.append_assoc, List.singleton_append, hl]
        exact ih (pre ++ [a]) t' hl' (hstep pre a t t' ⟨post, hl'⟩ ht hfa) hf
  exact key l [] s rfl h0 h

theorem foldlM_flatMap {β : Type} {f : σ → β → Except ε σ} (g : α → List β) (l : List α) (s : σ) :
    (l.flatMap g).foldlM f s = l.foldlM (fun s a => (g a).foldlM f s) s := by
  induction l generalizing s with
  | nil => rfl
  | cons a l ih =>
    rw [List.flatMap_cons, List.foldlM_append, List.foldlM_cons]
    exact congrArg _ (funext fun s' => ih s')

theorem anyM_ok {f : α → Except ε Bool} {P : α → Prop} {l : List α}
    (h : ∀ a ∈ l, ∃ b, f a = .ok b ∧ (b = true ↔ P a)) : ∃ b, l.anyM f = .ok b ∧ (b = true ↔ ∃ a ∈ l, P a) := by
  induction l with
  | nil => exact ⟨false, rfl, by simp⟩
  | cons a l ih =>
    obtain ⟨b, hb, hP⟩ := h a (List.mem_cons_self ..)
    rw [List.anyM_cons, hb]
    simp only [List.mem_cons, exists_eq_or_imp]
    cases b with
    | true => exact ⟨true, rfl, by simp [hP.mp rfl]⟩
    | false =>
      obtain ⟨b', hb', hl⟩ := ih fun x hx => h x (List.mem_cons_of_mem a hx)
      refine ⟨b', hb', hl.trans (or_iff_right fun ha => ?_).symm⟩
      exact Bool.false_ne_true (hP.mpr ha)

theorem allM_ok {f : α → Except ε Bool} {P : α → Prop} {l : List α}
    (h : ∀ a ∈ l, ∃ b, f a = .ok b ∧ (b = true ↔ P a)) : ∃ b, l.allM f = .ok b ∧ (b = true ↔ ∀ a ∈ l, P a) := by
  induction l with
  | nil => exact ⟨true, rfl, by simp⟩
  | cons a l ih =>
    obtain ⟨b, hb, hP⟩ := h a (List.mem_cons_self ..)
    rw [List.allM_cons, hb]
    simp only [List.mem_cons, forall_eq_or_imp]
    cases b with
    | false => exact ⟨false, rfl, by simp [← hP]⟩
    | true =>
      obtain ⟨b', hb', hl⟩ := ih fun x hx => h x (List.mem_cons_of_mem a hx)
      exact ⟨b', hb', hl.trans (and_iff_right (hP.mp rfl)).symm⟩

theorem findM_cons {f : α → Except ε Bool} {a : α} {l : List α} :
    (a :: l).findM? f = f a >>= fun b => cond b (pure (some a)) (l.findM? f) := rfl

theorem findM_ok {f : α → Except ε Bool} {P : α → Prop} {l : List α}
    (h : ∀ a ∈ l, ∃ b, f a = .ok b ∧ (b = true → P a)) : ∃ r, l.findM? f = .ok r ∧ ∀ a ∈ r, a ∈ l ∧ P a := by
  induction l with
  | nil => exact ⟨none, rfl, fun a ha => by cases ha⟩
  | cons a l ih =>
    obtain ⟨b, hb, hP⟩ := h a (List.mem_cons_self ..)
    rw [findM_cons, hb]
    cases b with
    | true =>
      refine ⟨some a, rfl, fun x hx => ?_⟩
      cases hx
      exact ⟨List.mem_cons_self .., hP rfl⟩
    | false =>
      obtain ⟨r, hr, hfound⟩ := ih fun x hx => h x (List.mem_cons_of_mem a hx)
      exact ⟨r, hr, fun x hx => ⟨List.mem_cons_of_mem a (hfound x hx).1, (hfound x hx).2⟩⟩

theorem findM_none {f : α → Except ε Bool} {l : List α} (h : l.findM? f = .ok none) : ∀ a ∈ l, f a = .ok false := by
  induction l with
  | nil => exact fun a ha => absurd ha List.not_mem_nil
  | cons a l ih =>
    rw [findM_cons] at h
    cases hb : f a with
    | error e => rw [hb] at h; cases h
    | ok b =>
      rw [hb] at h
      cases b with
      | true => cases h
      | false =>
        intro x hx
        rcases List.mem_cons.mp hx with rfl | hx
        · exact hb
        · exact ih h x hx

theorem filterM_ok {f : α → Except ε Bool} {P : α → Prop} {l : List α}
    (h : ∀ a ∈ l, ∃ b, f a = .ok b ∧ (b = true ↔ P a)) : ∃ r, l.filterM f = .ok r ∧ ∀ a, a ∈ r ↔ a ∈ l ∧ P a := by
  -- the accumulator holds the elements that are kept, last one first
  have key : ∀ (l acc : List α), (∀ a ∈ l, ∃ b, f a = .ok b ∧ (b = true ↔ P a)) →
      ∃ r, l.filterAuxM f acc = .ok r ∧ ∀ a, a ∈ r ↔ a ∈ acc ∨ (a ∈ l ∧ P a) := by
    intro l
    induction l with
    | nil => exact fun acc _ => ⟨acc, rfl, fun a => by simp⟩
    | cons x l ih =>
      intro acc h
      obtain ⟨b, hb, hP⟩ := h x (List.mem_cons_self ..)
      obtain ⟨r, hr, hmem⟩ := ih (cond b (x :: acc) acc) fun a ha => h a (List.mem_cons_of_mem x ha)
      refine ⟨r, ?_, fun a => ?_⟩
      · change (f x >>= fun b => l.filterAuxM f (cond b (x :: acc) acc)) = _
        rw [hb]
        exact hr
      · rw [hmem, List.mem_cons]
        by_cases ha : a = x
        · subst ha
          cases b with
          | true => simp [hP.mp rfl]
          | false => simp [show ¬P a from fun hx => Bool.false_ne_true (hP.mpr hx)]
        · cases b <;> simp [ha]
  obtain ⟨r, hr, hmem⟩ := key l [] h
  refine ⟨r.reverse, ?_, fun a => ?_⟩
  · change (l.filterAuxM f [] >>= fun as => pure as.reverse) = _
    rw [hr]
    rfl
  · rw [List.mem_reverse, hmem]
    simp

theorem foldlM_congr_inv {I : σ → Prop} {f f' : σ → α → Except ε σ} {l : List α} {s : σ} (hs : I s)
    (heq : ∀ s a, a ∈ l → I s → f s a = f' s a) (hI : ∀ s a s', a ∈ l → I s → f s a = .ok s' → I s') :
    l.foldlM f s = l.foldlM f' s := by
  induction l generalizing s with
  | nil => rfl
  | cons a l ih =>
    have ha := heq s a (List.mem_cons_self ..) hs
    rw [List.foldlM_cons, List.foldlM_cons, ← ha]
    cases hf : f s a with
    | error e => rfl
    | ok s' =>
      exact ih (hI s a s' (List.mem_cons_self ..) hs hf) (fun s b hb => heq s b (List.mem_cons_of_mem a hb))
        (fun s b s' hb => hI s b s' (List.mem_cons_of_mem a hb))

theorem foldlM_total {f : σ → α → Except ε σ} {J : List α → σ → Prop} {l : List α} {s : σ}
    (h0 : J [] s)
    (hstep : ∀ pre a t, pre ++ [a] <+: l → J pre t → ∃ t', f t a = .ok t' ∧ J (pre ++ [a]) t') :
    ∃ s', l.foldlM f s = .ok s' ∧ J l s' := by
  have key : ∀ (post pre : List α) (t : σ), pre ++ post = l → J pre t →
      ∃ s', post.foldlM f t = .ok s' ∧ J l s' := by
    intro post
    induction post with
    | nil =>
      intro pre t hl ht
      rw [List.append_nil] at hl
      subst hl
      exact ⟨t, rfl, ht⟩
    | cons a post ih =>
      intro pre t hl ht
      have hl' : (pre ++ [a]) ++ post = l := by rw [List.append_assoc, List.singleton_append, hl]
      obtain ⟨t', hfa, ht'⟩ := hstep pre a t ⟨post, hl'⟩ ht
      obtain ⟨s', hf, hs'⟩ := ih (pre ++ [a]) t' hl' ht'
      refine ⟨s', ?_, hs'⟩
      rw [List.foldlM_cons, hfa]
      exact hf
  exact key l [] s rfl h0

/-- A loop with a round that can only fail stops there or earlier. -/
theorem foldlM_fails {f : σ → α → Except ε σ} {l : List α} {e : ε} (s : σ) (herr : ∀ t a e', f t a = .error e' → e' = e)
    (hfails : ∃ a ∈ l, ∀ t, f t a = .error e) : l.foldlM f s = .error e := by
  induction l generalizing s with
  | nil =>
    obtain ⟨a, ha, -⟩ := hfails
    exact absurd ha List.not_mem_nil
  | cons b l ih =>
    rw [List.foldlM_cons]
    cases hb : f s b with
    | error e' => exact congrArg _ (herr s b e' hb)
    | ok t =>
      obtain ⟨a, ha, hfail⟩ := hfails
      rcases List.mem_cons.mp ha with rfl | ha
      · rw [hfail] at hb
        cases hb
      · exact ih t ⟨a, ha, hfail⟩

/-- The rule for a loop that counts: `J k` holds before round `k`. -/
theorem foldlM_range_total {f : σ → ℕ → Except ε σ} {J : ℕ → σ → Prop} {n : ℕ} {s : σ} (h0 : J 0 s)
    (hstep : ∀ k < n, ∀ t, J k t → ∃ t', f t k = .ok t' ∧ J (k + 1) t') :
    ∃ s', (List.range n).foldlM f s = .ok s' ∧ J n s' := by
  induction n with
  | zero => exact ⟨s, rfl, h0⟩
  | succ n ih =>
    obtain ⟨t, ht, hJ⟩ := ih fun k hk => hstep k (Nat.lt_succ_of_lt hk)
    obtain ⟨t', ht', hJ'⟩ := hstep n (Nat.lt_succ_self n) t hJ
    refine ⟨t', ?_, hJ'⟩
    rw [List.range_succ, List.foldlM_append, ht]
    change (f t n >>= fun s => List.foldlM f s []) = _
    rw [ht']
    rfl

/-- What a loop that counts and comes to its end has kept. -/
theorem foldlM_range_ok_inv {f : σ → ℕ → Except ε σ} {J : ℕ → σ → Prop} {n : ℕ} {s s' : σ} (h0 : J 0 s)
    (hstep : ∀ k < n, ∀ t t', J k t → f t k = .ok t' → J (k + 1) t') (h : (List.range n).foldlM f s = .ok s') : J n s' := by
  have hloop : J (List.range n).length s' := by
    refine foldlM_ok_inv (J := fun pre t => J pre.length t) h0 (fun pre k t t' hpre hJ hround => ?_) h
    have hk : k = pre.length ∧ k < n := by
      obtain ⟨post, hpost⟩ := hpre
      have hget : (List.range n)[pre.length]? = some k := by
        rw [← hpost, List.append_assoc, List.getElem?_append_right le_rfl, Nat.sub_self]
        rfl
      obtain ⟨hlt, he⟩ := List.getElem?_eq_some_iff.mp hget
      rw [List.getElem_range] at he
      rw [List.length_range] at hlt
      exact ⟨he.symm, he ▸ hlt⟩
    rw [List.length_append, List.length_singleton]
    rw [hk.1] at hround
    exact hstep pre.length (hk.1 ▸ hk.2) t t' hJ hround
  rwa [List.length_range] at hloop

/-- Two loops whose rounds keep a relation between the states. -/
theorem foldlM_rel {τ β : Type} {R : σ → τ → Prop} {Q : α → β → Prop} {f : σ → α → Except ε σ} {g : τ → β → Except ε τ}
    (hstep : ∀ s t a b s', R s t → Q a b → f s a = .ok s' → ∃ t', g t b = .ok t' ∧ R s' t') {l : List α} {l' : List β}
    (hl : List.Forall₂ Q l l') {s s' : σ} {t : τ} (hst : R s t) (h : l.foldlM f s = .ok s') :
    ∃ t', l'.foldlM g t = .ok t' ∧ R s' t' := by
  induction hl generalizing s t with
  | nil =>
    cases h
    exact ⟨t, rfl, hst⟩
  | @cons a b _ _ hab _ ih =>
    rw [List.foldlM_cons] at h
    cases hf : f s a with
    | error e => rw [hf] at h; cases h
    | ok u =>
      rw [hf] at h
      obtain ⟨v, hg, huv⟩ := hstep s t a b u hst hab hf
      obtain ⟨t', hrun, ht'⟩ := ih huv h
      refine ⟨t', ?_, ht'⟩
      rw [List.foldlM_cons, hg]
      exact hrun

/-- A loop keeps its result when its rounds do. -/
theorem foldlM_mono {f g : σ → α → Except ε σ} (hfg : ∀ {s a s'}, f s a = .ok s' → g s a = .ok s') {l : List α} {s s' : σ}
    (h : l.foldlM f s = .ok s') : l.foldlM g s = .ok s' := by
  induction l generalizing s with
  | nil => exact h
  | cons a l ih =>
    rw [List.foldlM_cons] at h ⊢
    cases hf : f s a with
    | error e => rw [hf] at h; cases h
    | ok t =>
      rw [hf] at h
      rw [hfg hf]
      exact ih h

/-- A loop does the same on elements that its rounds do not tell apart. -/
theorem foldlM_forall₂ {Q : α → α → Prop} {f : σ → α → Except ε σ} (hf : ∀ s a b, Q a b → f s a = f s b) {l l' : List α}
    (hl : List.Forall₂ Q l l') (s : σ) : l.foldlM f s = l'.foldlM f s := by
  induction hl generalizing s with
  | nil => rfl
  | cons hab _ ih =>
    rw [List.foldlM_cons, List.foldlM_cons, hf s _ _ hab]
    exact congrArg _ (funext ih)

/-- If a loop ends, all its rounds have. -/
theorem foldlM_ok_mem {f : σ → α → Except ε σ} {l : List α} {s s' : σ} (h : l.foldlM f s = .ok s') :
    ∀ a ∈ l, ∃ t t', f t a = .ok t' := by
  refine foldlM_ok_inv (J := fun pre _ => ∀ a ∈ pre, ∃ t t', f t a = .ok t') (by simp) ?_ h
  intro pre a t t' _ hpre hfa b hb
  rcases List.mem_append.mp hb with hb | hb
  · exact hpre b hb
  · rw [List.mem_singleton.mp hb]
    exact ⟨t, t', hfa⟩

@[simp] theorem ok_bind (a : α) (f : α → Except ε σ) : (Except.ok a >>= f) = f a := rfl

theorem bind_eq_ok {x : Except ε α} {f : α → Except ε σ} {b : σ} :
    x >>= f = .ok b ↔ ∃ a, x = .ok a ∧ f a = .ok b := by
  constructor
  · intro h
    cases x with
    | error e => cases h
    | ok a => exact ⟨a, rfl, h⟩
  · rintro ⟨a, rfl, h⟩
    exact h

/-- A loop whose rounds do not fail is a fold. -/
theorem foldlM_eq_foldl {f : σ → α → Except ε σ} {h : σ → α → σ} {l : List α}
    (hf : ∀ s, ∀ a ∈ l, f s a = .ok (h s a)) (s : σ) : l.foldlM f s = .ok (l.foldl h s) := by
  induction l generalizing s with
  | nil => rfl
  | cons a l ih =>
    rw [List.foldlM_cons, hf s a (List.mem_cons_self ..)]
    exact ih (fun s b hb => hf s b (List.mem_cons_of_mem a hb)) (h s a)

theorem mapM_eq_map {f : α → Except ε σ} {h : α → σ} {l : List α} (hf : ∀ a ∈ l, f a = .ok (h a)) :
    l.mapM f = .ok (l.map h) := by
  induction l with
  | nil => rfl
  | cons a l ih =>
    rw [List.mapM_cons, hf a (List.mem_cons_self ..), ih (fun b hb => hf b (List.mem_cons_of_mem a hb))]
    rfl

theorem mapM_ok_mem {f : α → Except ε σ} {l : List α} {r : List σ} (hr : l.mapM f = .ok r) :
    ∀ a ∈ l, ∃ b, f a = .ok b := by
  induction l generalizing r with
  | nil => exact fun a ha => by cases ha
  | cons a l ih =>
    rw [List.mapM_cons] at hr
    obtain ⟨b, hb, hr⟩ := bind_eq_ok.mp hr
    obtain ⟨bs, hbs, -⟩ := bind_eq_ok.mp hr
    intro x hx
    rcases List.mem_cons.mp hx with rfl | hx
    · exact ⟨b, hb⟩
    · exact ih hbs x hx

/-- A result does not depend on the order of rounds that commute when they return. -/
theorem foldlM_ok_perm {f : σ → α → Except ε σ}
    (hcomm : ∀ s a b t u, f s a = .ok t → f t b = .ok u → ∃ t', f s b = .ok t' ∧ f t' a = .ok u) {l l' : List α}
    (hl : l.Perm l') {s s' : σ} (h : l.foldlM f s = .ok s') : l'.foldlM f s = .ok s' := by
  induction hl generalizing s with
  | nil => exact h
  | cons a _ ih =>
    rw [List.foldlM_cons] at h ⊢
    obtain ⟨t, ht, hrest⟩ := bind_eq_ok.mp h
    exact bind_eq_ok.mpr ⟨t, ht, ih hrest⟩
  | swap a b l =>
    rw [List.foldlM_cons] at h ⊢
    obtain ⟨t, ht, hrest⟩ := bind_eq_ok.mp h
    rw [List.foldlM_cons] at hrest
    obtain ⟨u, hu, hrest⟩ := bind_eq_ok.mp hrest
    obtain ⟨t', ht', hu'⟩ := hcomm s b a t u ht hu
    refine bind_eq_ok.mpr ⟨t', ht', ?_⟩
    rw [List.foldlM_cons]
    exact bind_eq_ok.mpr ⟨u, hu', hrest⟩
  | trans _ _ ih₁ ih₂ => exact ih₂ (ih₁ h)

/-- A loop fails at one of its rounds, after the rounds before it have succeeded. -/
theorem foldlM_error_iff {f : σ → α → Except ε σ} {l : List α} {s : σ} {e : ε} :
    l.foldlM f s = .error e ↔ ∃ pre a post t, l = pre ++ a :: post ∧ pre.foldlM f s = .ok t ∧ f t a = .error e := by
  constructor
  · intro h
    induction l generalizing s with
    | nil => cases h
    | cons a l ih =>
      rw [List.foldlM_cons] at h
      cases hf : f s a with
      | error e' =>
        rw [hf] at h
        cases h
        exact ⟨[], a, l, s, rfl, rfl, hf⟩
      | ok t =>
        rw [hf] at h
        obtain ⟨pre, b, post, t', rfl, hpre, hb⟩ := ih h
        refine ⟨a :: pre, b, post, t', rfl, ?_, hb⟩
        rw [List.foldlM_cons, hf]
        exact hpre
  · rintro ⟨pre, a, post, t, rfl, hpre, ha⟩
    rw [List.foldlM_append, hpre]
    change List.foldlM f t (a :: post) = _
    rw [List.foldlM_cons, ha]
    rfl

/-- A loop ends at the first round that fails; before it the invariant holds. -/
theorem foldlM_stops {f : σ → α → Except ε σ} {I : σ → Prop} {bad : α} {l : List α} {s : σ} (hs : I s)
    (hok : ∀ s a, a ∈ l → a ≠ bad → I s → ∃ s', f s a = .ok s' ∧ I s') (hfail : ∀ s, ∃ e, f s bad = .error e)
    (hbad : bad ∈ l) : ∃ t, I t ∧ l.foldlM f s = f t bad := by
  induction l generalizing s with
  | nil => cases hbad
  | cons a l ih =>
    rw [List.foldlM_cons]
    by_cases ha : a = bad
    · subst ha
      obtain ⟨e, he⟩ := hfail s
      exact ⟨s, hs, by rw [he]; rfl⟩
    · obtain ⟨s', hstep, hs'⟩ := hok s a (List.mem_cons_self ..) ha hs
      rw [hstep]
      have hrest : bad ∈ l := (List.mem_cons.mp hbad).resolve_left (Ne.symm ha)
      exact ih hs' (fun s b hb => hok s b (List.mem_cons_of_mem a hb)) hrest

end Loops

/-! ## Which errors can occur -/

section Errors
variable {ε σ α β : Type} {P : ε → Prop}

/-- Every error satisfies `P`. -/
def ErrorsIn (P : ε → Prop) (x : Except ε α) : Prop := ∀ e, x = .error e → P e

theorem ErrorsIn.ok (a : α) : ErrorsIn P (.ok a) := fun _ h => by cases h

theorem ErrorsIn.error {e : ε} (h : P e) : ErrorsIn P (.error e : Except ε α) := fun _ h' => by
  cases h'
  exact h

theorem ErrorsIn.mono {Q : ε → Prop} {x : Except ε α} (h : ErrorsIn P x) (hPQ : ∀ e, P e → Q e) : ErrorsIn Q x :=
  fun e he => hPQ e (h e he)

theorem ErrorsIn.bind {x : Except ε α} {f : α → Except ε β} (hx : ErrorsIn P x) (hf : ∀ a, x = .ok a → ErrorsIn P (f a)) :
    ErrorsIn P (x >>= f) := by
  cases x with
  | error e => exact .error (hx e rfl)
  | ok a => exact hf a rfl

theorem ErrorsIn.map {x : Except ε α} (hx : ErrorsIn P x) (f : α → β) : ErrorsIn P (f <$> x) := by
  cases x with
  | error e => exact .error (hx e rfl)
  | ok a => exact .ok (f a)

theorem ErrorsIn.foldlM {f : σ → α → Except ε σ} {l : List α} (hf : ∀ s, ∀ a ∈ l, ErrorsIn P (f s a)) (s : σ) :
    ErrorsIn P (l.foldlM f s) := by
  induction l generalizing s with
  | nil => exact .ok s
  | cons a l ih =>
    rw [List.foldlM_cons]
    exact (hf s a (List.mem_cons_self ..)).bind fun s' _ => ih (fun s b hb => hf s b (List.mem_cons_of_mem a hb)) s'

theorem ErrorsIn.mapM {f : α → Except ε β} {l : List α} (hf : ∀ a ∈ l, ErrorsIn P (f a)) : ErrorsIn P (l.mapM f) := by
  induction l with
  | nil => exact .ok []
  | cons a l ih =>
    rw [List.mapM_cons]
    exact (hf a (List.mem_cons_self ..)).bind fun b _ =>
      (ih fun c hc => hf c (List.mem_cons_of_mem a hc)).bind fun bs _ => .ok (b :: bs)

/-- Errors of a guarded computation, which carry the state. -/
theorem ErrorsIn.guard {s : σ} {x : Except ε α} {k : α → Except (ε × σ) σ} (hx : ErrorsIn P x)
    (hk : ∀ a, x = .ok a → ErrorsIn (fun e => P e.1) (k a)) : ErrorsIn (fun e => P e.1) (Outcome.guard s x k) := by
  cases x with
  | error e => exact .error (hx e rfl)
  | ok a => exact hk a rfl

end Errors
end MetaCG.Foundations
