import Mathlib.Order.Bounds.Basic
import MetaCG.Tools.GlobalCallDepth

/-! What `calculateGlobalCallDepth` computes.

A chain of calls makes a nest of loops: the loops around its calls and those of its last function. The
global depth of a function is the depth of the deepest nest that begins at it on a chain from `main` in
which no function is repeated. -/
namespace MetaCG.FormatTwo
open Foundations
set_option autoImplicit false
set_option maxHeartbeats 250000
set_option maxRecDepth 120000

/-! ## Nests -/

section
variable (calls : String → String → ℤ → Prop) (loops : String → ℤ → Prop)

/-- The depths of the nests that begin at `entry` and whose chains avoid `visited`. -/
inductive Nest : Finset String → String → ℤ → Prop
  | flat (visited : Finset String) (entry : String) : Nest visited entry 0
  | loop {visited : Finset String} {entry : String} {d : ℤ} (h : loops entry d) : Nest visited entry d
  | call {visited : Finset String} {entry child : String} {d x : ℤ} (h : calls entry child d)
      (hchild : child ∉ insert entry visited) (hx : Nest (insert entry visited) child x) : Nest visited entry (d + x)

/-- A chain from `entry`, where `visited` is marked, to `last`, where `marked` is. -/
inductive Chain : Finset String → String → Finset String → String → Prop
  | refl (visited : Finset String) (entry : String) : Chain visited entry visited entry
  | call {visited marked : Finset String} {entry child last : String} {d : ℤ} (h : calls entry child d)
      (hchild : child ∉ insert entry visited) (hlast : Chain (insert entry visited) child marked last) :
      Chain visited entry marked last

/-- The nests that begin at `last` on a chain from `entry`. -/
def NestOn (visited : Finset String) (entry last : String) (x : ℤ) : Prop :=
  ∃ marked, Chain calls visited entry marked last ∧ Nest calls loops marked last x

end

section
variable {calls : String → String → ℤ → Prop} {loops : String → ℤ → Prop}

theorem Nest.subset {visited visited' : Finset String} {entry : String} {x : ℤ} (h : Nest calls loops visited' entry x)
    (hsub : visited ⊆ visited') : Nest calls loops visited entry x := by
  induction h generalizing visited with
  | flat => exact .flat visited _
  | loop h => exact .loop h
  | @call _ entry _ _ _ h hchild _ ih =>
    have hins := Finset.insert_subset_insert entry hsub
    exact .call h (fun hc => hchild (hins hc)) (ih hins)

theorem nest_iff {visited : Finset String} {entry : String} {x : ℤ} : Nest calls loops visited entry x ↔
    x = 0 ∨ loops entry x ∨ ∃ child d y, calls entry child d ∧ child ∉ insert entry visited ∧
      Nest calls loops (insert entry visited) child y ∧ x = d + y := by
  constructor
  · intro h
    cases h with
    | flat => exact .inl rfl
    | loop h => exact .inr (.inl h)
    | call h hchild hx => exact .inr (.inr ⟨_, _, _, h, hchild, hx, rfl⟩)
  · rintro (rfl | h | ⟨child, d, y, h, hchild, hy, rfl⟩)
    · exact .flat visited entry
    · exact .loop h
    · exact .call h hchild hy

theorem nestOn_iff {visited : Finset String} {entry last : String} {x : ℤ} : NestOn calls loops visited entry last x ↔
    (last = entry ∧ Nest calls loops visited entry x) ∨ ∃ child d, calls entry child d ∧ child ∉ insert entry visited ∧
      NestOn calls loops (insert entry visited) child last x := by
  constructor
  · rintro ⟨marked, hchain, hx⟩
    cases hchain with
    | refl => exact .inl ⟨rfl, hx⟩
    | call h hchild hlast => exact .inr ⟨_, _, h, hchild, marked, hlast, hx⟩
  · rintro (⟨rfl, hx⟩ | ⟨child, d, h, hchild, marked, hlast, hx⟩)
    · exact ⟨visited, .refl visited last, hx⟩
    · exact ⟨marked, .call h hchild hlast, hx⟩

end

section
variable {calls calls' : String → String → ℤ → Prop} {loops loops' : String → ℤ → Prop}

/-- Bounds that the loops and the calls keep bound the nests. -/
theorem Nest.le_bound (bound : String → ℤ) (hzero : ∀ f, 0 ≤ bound f) (hloops : ∀ f d, loops f d → d ≤ bound f)
    (hcalls : ∀ f c d, calls f c d → c ≠ f → d + bound c ≤ bound f) {visited : Finset String} {entry : String} {x : ℤ}
    (h : Nest calls loops visited entry x) : x ≤ bound entry := by
  induction h with
  | flat _ entry => exact hzero entry
  | loop h => exact hloops _ _ h
  | @call visited entry child d x h hchild _ ih =>
    have hne : child ≠ entry := fun heq => hchild (by rw [heq]; exact Finset.mem_insert_self ..)
    exact (Int.add_le_add_left ih d).trans (hcalls entry child d h hne)

/-- What every called function has and the entry as well, the last function of a chain has. -/
theorem Chain.last_of_called {P : String → Prop} (hcalled : ∀ f c d, calls f c d → P c) {visited marked : Finset String}
    {entry last : String} (h : Chain calls visited entry marked last) (hentry : P entry) : P last := by
  induction h with
  | refl => exact hentry
  | call h _ _ ih => exact ih (hcalled _ _ _ h)

theorem Nest.mono (hcalls : ∀ f c d, calls f c d → calls' f c d) (hloops : ∀ f d, loops f d → loops' f d)
    {visited : Finset String} {entry : String} {x : ℤ} (h : Nest calls loops visited entry x) :
    Nest calls' loops' visited entry x := by
  induction h with
  | flat visited entry => exact .flat visited entry
  | loop h => exact .loop (hloops _ _ h)
  | call h hchild _ ih => exact .call (hcalls _ _ _ h) hchild ih

theorem Chain.mono (hcalls : ∀ f c d, calls f c d → calls' f c d) {visited marked : Finset String} {entry last : String}
    (h : Chain calls visited entry marked last) : Chain calls' visited entry marked last := by
  induction h with
  | refl visited entry => exact .refl visited entry
  | call h hchild _ ih => exact .call (hcalls _ _ _ h) hchild ih

theorem NestOn.mono (hcalls : ∀ f c d, calls f c d → calls' f c d) (hloops : ∀ f d, loops f d → loops' f d)
    {visited : Finset String} {entry last : String} {x : ℤ} (h : NestOn calls loops visited entry last x) :
    NestOn calls' loops' visited entry last x := by
  obtain ⟨marked, hchain, hx⟩ := h
  exact ⟨marked, hchain.mono hcalls, hx.mono hcalls hloops⟩

end

/-! ## Recorded depths -/

/-- The depths of `g` after those in `found` have been recorded. -/
structure Records (g : Depths) (found : String → ℤ → Prop) (g' : Depths) : Prop where
  source : ∀ k x, g'.find k = some x → g.find k = some x ∨ found k x
  kept : ∀ k x, g.find k = some x → ∃ y, g'.find k = some y ∧ x ≤ y
  found : ∀ k x, found k x → ∃ y, g'.find k = some y ∧ x ≤ y

theorem Records.refl (g : Depths) : Records g (fun _ _ => False) g where
  source := fun _ _ h => .inl h
  kept := fun _ x h => ⟨x, h, le_rfl⟩
  found := fun _ _ h => h.elim

theorem Records.congr {g g' : Depths} {found found' : String → ℤ → Prop} (h : Records g found g')
    (heq : ∀ k x, found k x ↔ found' k x) : Records g found' g' := by
  have hsame : found = found' := funext fun k => funext fun x => propext (heq k x)
  rw [← hsame]
  exact h

theorem Records.trans {g g' g'' : Depths} {found found' : String → ℤ → Prop} (h : Records g found g')
    (h' : Records g' found' g'') : Records g (fun k x => found k x ∨ found' k x) g'' where
  source := by
    intro k x hx
    rcases h'.source k x hx with hx | hx
    · exact (h.source k x hx).imp_right .inl
    · exact .inr (.inr hx)
  kept := by
    intro k x hx
    obtain ⟨y, hy, hxy⟩ := h.kept k x hx
    obtain ⟨z, hz, hyz⟩ := h'.kept k y hy
    exact ⟨z, hz, hxy.trans hyz⟩
  found := by
    rintro k x (hx | hx)
    · obtain ⟨y, hy, hxy⟩ := h.found k x hx
      obtain ⟨z, hz, hyz⟩ := h'.kept k y hy
      exact ⟨z, hz, hxy.trans hyz⟩
    · exact h'.found k x hx

/-- The greatest depth of a function is recorded under it. -/
theorem Records.insertWith {entry : String} {found : ℤ → Prop} {d : ℤ} (hd : IsGreatest {x | found x} d) (g : Depths) :
    Records g (fun k x => k = entry ∧ found x) (g.insertWith max entry d) where
  source := by
    intro k x hx
    rw [OMap.find_insertWith] at hx
    split_ifs at hx with hk
    · subst hk
      cases hold : g.find k with
      | none =>
        rw [hold] at hx
        cases hx
        exact .inr ⟨rfl, hd.1⟩
      | some y =>
        rw [hold] at hx
        cases hx
        rcases max_choice y d with hmax | hmax
        · rw [hmax]
          exact .inl rfl
        · rw [hmax]
          exact .inr ⟨rfl, hd.1⟩
    · exact .inl hx
  kept := by
    intro k x hx
    rw [OMap.find_insertWith]
    split_ifs with hk
    · subst hk
      rw [hx]
      exact ⟨max x d, rfl, le_max_left x d⟩
    · exact ⟨x, hx, le_rfl⟩
  found := by
    rintro k x ⟨rfl, hx⟩
    rw [OMap.find_insertWith, if_pos rfl]
    cases g.find k with
    | none => exact ⟨d, rfl, hd.2 hx⟩
    | some y => exact ⟨max y d, rfl, (hd.2 hx).trans (le_max_right y d)⟩

theorem Records.unionWith (g m : Depths) : Records g (fun k x => m.find k = some x) (g.unionWith max m) where
  source := by
    intro k x hx
    rw [OMap.find_unionWith] at hx
    cases hg : g.find k with
    | none =>
      rw [hg, Option.merge_none_left] at hx
      exact .inr hx
    | some a =>
      cases hm : m.find k with
      | none =>
        rw [hg, hm] at hx
        exact .inl hx
      | some b =>
        rw [hg, hm, Option.merge_some_some, Option.some.injEq] at hx
        rcases max_choice a b with hmax | hmax
        · exact .inl (by rw [← hx, hmax])
        · exact .inr (by rw [← hx, hmax])
  kept := by
    intro k x hx
    rw [OMap.find_unionWith, hx]
    cases m.find k with
    | none => exact ⟨x, rfl, le_rfl⟩
    | some b => exact ⟨max x b, rfl, le_max_left x b⟩
  found := by
    intro k x hx
    rw [OMap.find_unionWith, hx]
    cases g.find k with
    | none => exact ⟨x, rfl, le_rfl⟩
    | some a => exact ⟨max a x, rfl, le_max_right a x⟩

section
variable {S : String → ℤ → Prop} {m : Depths}

theorem Records.find_iff (h : Records .empty S m) (k : String) (d : ℤ) :
    m.find k = some d ↔ IsGreatest {x | S k x} d := by
  constructor
  · intro hd
    refine ⟨(h.source k d hd).resolve_left (by simp), fun x hx => ?_⟩
    obtain ⟨y, hy, hxy⟩ := h.found k x hx
    rw [hd] at hy
    cases hy
    exact hxy
  · intro hd
    obtain ⟨y, hy, hdy⟩ := h.found k d hd.1
    have hyd : y ≤ d := hd.2 ((h.source k y hy).resolve_left (by simp))
    rw [hy, le_antisymm hyd hdy]

theorem Records.find_none_iff (h : Records .empty S m) (k : String) :
    m.find k = none ↔ ∀ x, ¬ S k x := by
  constructor
  · intro hnone x hx
    obtain ⟨y, hy, -⟩ := h.found k x hx
    rw [hnone] at hy
    cases hy
  · intro hno
    cases hk : m.find k with
    | none => rfl
    | some d => exact absurd ((h.source k d hk).resolve_left (by simp)) (hno d)

theorem isGreatest_of_matched {T T' : ℤ → Prop} {d : ℤ} (h : ∀ x, T x → ∃ y, T' y ∧ x ≤ y) (h' : ∀ x, T' x → ∃ y, T y ∧ x ≤ y)
    (hd : IsGreatest {x | T x} d) : IsGreatest {x | T' x} d := by
  have hupper : ∀ x, T' x → x ≤ d := by
    intro x hx
    obtain ⟨y, hy, hxy⟩ := h' x hx
    exact hxy.trans (hd.2 hy)
  obtain ⟨y, hy, hdy⟩ := h d hd.1
  have hyd : y = d := le_antisymm (hupper y hy) hdy
  exact ⟨hyd ▸ hy, hupper⟩

/-- Depths that are recorded from matching depths are the same. -/
theorem Records.unique {S' : String → ℤ → Prop} {m' : Depths} (h : Records .empty S m) (h' : Records .empty S' m')
    (hle : ∀ k x, S k x → ∃ y, S' k y ∧ x ≤ y) (hge : ∀ k x, S' k x → ∃ y, S k y ∧ x ≤ y) : m = m' := by
  refine OMap.ext_find fun k => Option.ext fun d => ?_
  rw [h.find_iff, h'.find_iff]
  exact ⟨isGreatest_of_matched (hle k) (hge k), isGreatest_of_matched (hge k) (hle k)⟩

end

/-- The entry of a function is overwritten with its greatest depth. -/
theorem Records.overwrite {found : String → ℤ → Prop} {g : Depths} (h : Records .empty found g) {entry : String} {d : ℤ}
    (hd : IsGreatest {x | found entry x} d) : Records .empty found (g.insert entry d) where
  source := by
    intro k x hx
    rw [OMap.find_insert] at hx
    split_ifs at hx with hk
    · cases hx
      rw [hk]
      exact .inr hd.1
    · exact h.source k x hx
  kept := fun k x hx => by cases hx
  found := by
    intro k x hx
    rw [OMap.find_insert]
    split_ifs with hk
    · rw [hk] at hx
      exact ⟨d, rfl, hd.2 hx⟩
    · exact h.found k x hx

/-! ## The calls -/

section
variable {w : Walk} {callDepths : OMap String Depths} {localLoopDepth : Depths}

/-- `entry` calls `child` in loops of depth `d`. -/
def CallIn (callDepths : OMap String Depths) (entry child : String) (d : ℤ) : Prop :=
  ∃ children, callDepths.find entry = some children ∧ children.find child = some d

def LoopIn (localLoopDepth : Depths) (entry : String) (d : ℤ) : Prop := localLoopDepth.find entry = some d

/-- The nests that the loop over the children in `pre` looks at. -/
def ChildNest (calls : String → String → ℤ → Prop) (loops : String → ℤ → Prop) (visited : Finset String)
    (pre : List (String × ℤ)) (x : ℤ) : Prop :=
  x = 0 ∨ ∃ child d y, (child, d) ∈ pre ∧ child ∉ visited ∧ Nest calls loops visited child y ∧ x = d + y

def ChildNestOn (calls : String → String → ℤ → Prop) (loops : String → ℤ → Prop) (visited : Finset String)
    (pre : List (String × ℤ)) (last : String) (x : ℤ) : Prop :=
  ∃ child d, (child, d) ∈ pre ∧ child ∉ visited ∧ NestOn calls loops visited child last x

/-- What is known of a call that returns. -/
def Deepest (calls : String → String → ℤ → Prop) (loops : String → ℤ → Prop) (visited : Finset String) (entry : String)
    (g : Depths) (r : ℤ × Depths) : Prop :=
  IsGreatest {x | Nest calls loops visited entry x} r.1 ∧ Records g (NestOn calls loops visited entry) r.2

theorem visitChild_eq_ok {call : String → Depths → Except DepthError (ℤ × Depths)} {visited : Finset String}
    {acc acc' : ℤ × Depths} {child : String × ℤ} (hvisited : child.1 ∉ visited) : visitChild call visited acc child = .ok acc' ↔
      ∃ r, call child.1 acc.2 = .ok r ∧ InInt (child.2 + r.1) ∧ acc' = (max acc.1 (child.2 + r.1), r.2) := by
  unfold visitChild
  rw [if_neg hvisited, bind_eq_ok]
  refine exists_congr fun r => and_congr_right fun _ => ?_
  rw [bind_eq_ok]
  simp only [addInt_eq_ok]
  constructor
  · rintro ⟨_, ⟨hint, rfl⟩, h⟩
    cases h
    exact ⟨hint, rfl⟩
  · rintro ⟨hint, rfl⟩
    exact ⟨_, ⟨hint, rfl⟩, rfl⟩

/-- One child. -/
theorem visitChild_deepest {calls : String → String → ℤ → Prop} {loops : String → ℤ → Prop}
    {call : String → Depths → Except DepthError (ℤ × Depths)} {visited : Finset String}
    (hcall : ∀ entry g r, call entry g = .ok r → Deepest calls loops visited entry g r)
    {g : Depths} {pre : List (String × ℤ)} {child : String × ℤ} {acc acc' : ℤ × Depths}
    (hgreatest : IsGreatest {x | ChildNest calls loops visited pre x} acc.1)
    (hrecords : Records g (ChildNestOn calls loops visited pre) acc.2) (h : visitChild call visited acc child = .ok acc') :
    IsGreatest {x | ChildNest calls loops visited (pre ++ [child]) x} acc'.1 ∧
      Records g (ChildNestOn calls loops visited (pre ++ [child])) acc'.2 := by
  have hsplit : ∀ {P : String → ℤ → Prop}, (∃ c d, (c, d) ∈ pre ++ [child] ∧ P c d) ↔
      (∃ c d, (c, d) ∈ pre ∧ P c d) ∨ P child.1 child.2 := by
    intro P
    simp only [List.mem_append, List.mem_singleton, or_and_right, exists_or]
    refine or_congr_right ⟨?_, fun hP => ⟨child.1, child.2, rfl, hP⟩⟩
    rintro ⟨c, d, rfl, hP⟩
    exact hP
  have hnest : ∀ x, ChildNest calls loops visited (pre ++ [child]) x ↔ ChildNest calls loops visited pre x ∨
      (child.1 ∉ visited ∧ ∃ y, Nest calls loops visited child.1 y ∧ x = child.2 + y) := by
    intro x
    unfold ChildNest
    simp only [exists_and_left, or_assoc]
    rw [hsplit]
  have hnestOn : ∀ k x, ChildNestOn calls loops visited (pre ++ [child]) k x ↔ ChildNestOn calls loops visited pre k x ∨
      (child.1 ∉ visited ∧ NestOn calls loops visited child.1 k x) := fun k x => hsplit
  by_cases hvisited : child.1 ∈ visited
  · rw [visitChild, if_pos hvisited] at h
    cases h
    have hsame : {x | ChildNest calls loops visited (pre ++ [child]) x} = {x | ChildNest calls loops visited pre x} :=
      Set.ext fun x => (hnest x).trans (or_iff_left fun hx => hx.1 hvisited)
    rw [hsame]
    exact ⟨hgreatest, hrecords.congr fun k x => ((hnestOn k x).trans (or_iff_left fun hx => hx.1 hvisited)).symm⟩
  · obtain ⟨r, hr, -, rfl⟩ := (visitChild_eq_ok hvisited).mp h
    obtain ⟨hdepth, hrec⟩ := hcall child.1 acc.2 r hr
    refine ⟨⟨?_, fun x hx => ?_⟩, (hrecords.trans hrec).congr fun k x => ?_⟩
    · change ChildNest calls loops visited (pre ++ [child]) (max acc.1 (child.2 + r.1))
      rw [hnest]
      rcases max_choice acc.1 (child.2 + r.1) with hmax | hmax
      · rw [hmax]
        exact .inl hgreatest.1
      · rw [hmax]
        exact .inr ⟨hvisited, r.1, hdepth.1, rfl⟩
    · rcases (hnest x).mp hx with hx | ⟨-, y, hy, rfl⟩
      · exact (hgreatest.2 hx).trans (le_max_left _ _)
      · have hle : y ≤ r.1 := hdepth.2 hy
        exact (Int.add_le_add_left hle child.2).trans (le_max_right _ _)
    · rw [hnestOn]
      exact or_congr_right (and_iff_right hvisited).symm

theorem isGreatest_nest {P Q : ℤ → Prop} {entry : String} {m : ℤ} (hzero : P 0) (h : IsGreatest {x | P x} m)
    (hQ : ∀ x, Q x ↔ P x ∨ LoopIn localLoopDepth entry x) :
    IsGreatest {x | Q x} (max m ((localLoopDepth.find entry).getD 0)) := by
  cases hloop : localLoopDepth.find entry with
  | none =>
    have hmax : max m ((none : Option ℤ).getD 0) = m := max_eq_left (h.2 hzero)
    rw [hmax]
    refine ⟨(hQ m).mpr (.inl h.1), fun x hx => ?_⟩
    rcases (hQ x).mp hx with hx | hx
    · exact h.2 hx
    · rw [LoopIn, hloop] at hx
      cases hx
  | some d =>
    refine ⟨(hQ _).mpr ?_, fun x hx => ?_⟩
    · rcases max_choice m ((some d).getD 0) with hmax | hmax
      · rw [hmax]
        exact .inl h.1
      · rw [hmax]
        exact .inr hloop
    · rcases (hQ x).mp hx with hx | hx
      · exact (h.2 hx).trans (le_max_left _ _)
      · rw [LoopIn, hloop] at hx
        cases hx
        exact le_max_right _ _

/-- A call returns the depth of the deepest nest at its entry, and records what its calls return. -/
theorem getCallDepth_deepest (fuel : ℕ) (visited : Finset String) (entry : String) (g : Depths) (r : ℤ × Depths)
    (h : getCallDepth w callDepths localLoopDepth fuel visited entry g = .ok r) :
    Deepest (CallIn callDepths) (LoopIn localLoopDepth) visited entry g r := by
  induction fuel generalizing visited entry g r with
  | zero => cases h
  | succ fuel ih =>
    rw [getCallDepth] at h
    cases hfind : callDepths.find entry with
    | none =>
      rw [hfind] at h
      cases h
    | some children =>
      rw [hfind] at h
      obtain ⟨acc, hacc, h⟩ := bind_eq_ok.mp h
      cases h
      obtain ⟨hgreatest, hrecords⟩ := foldlM_ok_inv
        (J := fun pre acc =>
          IsGreatest {x | ChildNest (CallIn callDepths) (LoopIn localLoopDepth) (insert entry visited) pre x} acc.1 ∧
            Records g (ChildNestOn (CallIn callDepths) (LoopIn localLoopDepth) (insert entry visited) pre) acc.2)
        ⟨⟨.inl rfl, by rintro x (rfl | ⟨_, _, _, hmem, -⟩); exacts [le_rfl, absurd hmem List.not_mem_nil]⟩,
          (Records.refl g).congr fun k x => ⟨False.elim, by rintro ⟨_, _, hmem, -⟩; exact List.not_mem_nil hmem⟩⟩
        (fun pre child t t' _ hJ ht => visitChild_deepest (ih (insert entry visited)) hJ.1 hJ.2 ht) hacc
      have hcalls : ∀ child d, (child, d) ∈ w.order children.entries ↔ CallIn callDepths entry child d := by
        intro child d
        rw [(w.perm children.entries).mem_iff, OMap.mem_entries, CallIn, hfind]
        exact ⟨fun hd => ⟨children, rfl, hd⟩, by rintro ⟨_, ⟨⟩, hd⟩; exact hd⟩
      have hdepth : IsGreatest {x | Nest (CallIn callDepths) (LoopIn localLoopDepth) visited entry x}
          (max acc.1 ((localLoopDepth.find entry).getD 0)) := by
        refine isGreatest_nest (.inl rfl) hgreatest fun x => nest_iff.trans ?_
        unfold ChildNest
        simp only [hcalls]
        rw [or_assoc]
        exact or_congr_right or_comm
      refine ⟨hdepth, (hrecords.trans (Records.insertWith hdepth acc.2)).congr fun k x => ?_⟩
      rw [nestOn_iff, or_comm]
      refine or_congr_right ?_
      unfold ChildNestOn
      simp only [hcalls]

end

/-! ## Runs that return -/

/-- Each chain from `entry` leads to one of the functions, and no nest on it is deeper than an `int`. -/
def Fits (calls : String → String → ℤ → Prop) (loops : String → ℤ → Prop) (functions : String → Prop) (visited : Finset String)
    (entry : String) : Prop := ∀ f x, NestOn calls loops visited entry f x → functions f ∧ x ≤ 2147483647

/-- The nodes that are not marked. -/
def unmarked (callDepths : OMap String Depths) (visited : Finset String) : Finset String :=
  (callDepths.entries.map Prod.fst).toFinset \ visited

section
variable {callDepths : OMap String Depths} {localLoopDepth : Depths}

theorem unmarked_insert_lt {visited : Finset String} {entry : String} {children : Depths}
    (hentry : callDepths.find entry = some children) (hvisited : entry ∉ visited) :
    (unmarked callDepths (insert entry visited)).card < (unmarked callDepths visited).card := by
  have hmem : entry ∈ (callDepths.entries.map Prod.fst).toFinset :=
    List.mem_toFinset.mpr (List.mem_map.mpr ⟨_, OMap.mem_entries.mpr hentry, rfl⟩)
  refine Finset.card_lt_card (Finset.ssubset_iff_subset_ne.mpr
    ⟨Finset.sdiff_subset_sdiff le_rfl (Finset.subset_insert entry visited), fun he => ?_⟩)
  have hin : entry ∈ unmarked callDepths visited := Finset.mem_sdiff.mpr ⟨hmem, hvisited⟩
  rw [← he] at hin
  exact (Finset.mem_sdiff.mp hin).2 (Finset.mem_insert_self ..)

/-- A call that returns has met entries and `int`s only. -/
theorem fits_of_getCallDepth {w : Walk} (hloops : ∀ f d, LoopIn localLoopDepth f d → InInt d) {fuel : ℕ}
    {visited : Finset String} {entry : String} {g : Depths} {r : ℤ × Depths}
    (h : getCallDepth w callDepths localLoopDepth fuel visited entry g = .ok r) : Fits (CallIn callDepths)
      (LoopIn localLoopDepth) (fun f => (callDepths.find f).isSome = true) visited entry := by
  induction fuel generalizing visited entry g r with
  | zero => cases h
  | succ fuel ih =>
    rw [getCallDepth] at h
    cases hfind : callDepths.find entry with
    | none =>
      rw [hfind] at h
      cases h
    | some children =>
      rw [hfind] at h
      obtain ⟨acc, hacc, -⟩ := bind_eq_ok.mp h
      have hchild : ∀ child d, CallIn callDepths entry child d → child ∉ insert entry visited → ∃ g r,
          getCallDepth w callDepths localLoopDepth fuel (insert entry visited) child g = .ok r ∧ InInt (d + r.1) := by
        rintro child d ⟨children', hchildren', hd⟩ hunmarked
        rw [hfind] at hchildren'
        cases hchildren'
        obtain ⟨t, t', ht⟩ := foldlM_ok_mem hacc (child, d) ((w.perm children.entries).mem_iff.mpr (OMap.mem_entries.mpr hd))
        obtain ⟨r, hr, hint, -⟩ := (visitChild_eq_ok hunmarked).mp ht
        exact ⟨t.2, r, hr, hint⟩
      intro f x hx
      rcases nestOn_iff.mp hx with ⟨rfl, hx⟩ | ⟨child, d, hd, hunmarked, hx⟩
      · refine ⟨Option.isSome_iff_exists.mpr ⟨children, hfind⟩, ?_⟩
        rcases nest_iff.mp hx with rfl | hloop | ⟨child, d, y, hd, hunmarked, hy, rfl⟩
        · decide
        · exact (hloops _ x hloop).2
        · obtain ⟨g', r', hr', hint⟩ := hchild child d hd hunmarked
          have hle : y ≤ r'.1 := (getCallDepth_deepest fuel _ child g' r' hr').1.2 hy
          exact (Int.add_le_add_left hle d).trans hint.2
      · obtain ⟨g', r', hr', -⟩ := hchild child d hd hunmarked
        exact ih hr' f x hx

/-- A call returns if its chains fit; its fuel has to exceed the number of unmarked nodes. -/
theorem getCallDepth_returns (w : Walk) (hcalls : ∀ f c d, CallIn callDepths f c d → InInt d) (fuel : ℕ)
    (visited : Finset String) (entry : String) (g : Depths) (hvisited : entry ∉ visited)
    (hfuel : (unmarked callDepths visited).card < fuel) (h : Fits (CallIn callDepths) (LoopIn localLoopDepth)
      (fun f => (callDepths.find f).isSome = true) visited entry) :
    ∃ r, getCallDepth w callDepths localLoopDepth fuel visited entry g = .ok r := by
  induction fuel generalizing visited entry g with
  | zero => omega
  | succ fuel ih =>
    obtain ⟨children, hchildren⟩ := Option.isSome_iff_exists.mp (h entry 0 ⟨visited, .refl visited entry, .flat visited entry⟩).1
    have hlt := unmarked_insert_lt hchildren hvisited
    obtain ⟨r, hr, -⟩ := foldlM_total (J := fun _ _ => True) (l := w.order children.entries) (s := (0, g)) trivial
      (f := visitChild (getCallDepth w callDepths localLoopDepth fuel (insert entry visited)) (insert entry visited))
      (fun pre child t hpre _ => by
        by_cases hc : child.1 ∈ insert entry visited
        · exact ⟨t, by rw [visitChild, if_pos hc], trivial⟩
        · have hmem : child ∈ children.entries :=
            (w.perm children.entries).mem_iff.mp (hpre.subset (List.mem_append_right _ (List.mem_singleton_self child)))
          have hcall : CallIn callDepths entry child.1 child.2 := ⟨children, hchildren, OMap.mem_entries.mp hmem⟩
          obtain ⟨r, hr⟩ := ih (insert entry visited) child.1 t.2 hc (by omega)
            fun f x hx => h f x (nestOn_iff.mpr (.inr ⟨child.1, child.2, hcall, hc, hx⟩))
          have hdeepest := (getCallDepth_deepest fuel _ child.1 t.2 r hr).1
          have hupper := (h entry (child.2 + r.1) ⟨visited, .refl visited entry, .call hcall hc hdeepest.1⟩).2
          have hlower := (hcalls entry child.1 child.2 hcall).1
          have hnonneg : 0 ≤ r.1 := hdeepest.2 (.flat _ child.1)
          exact ⟨_, (visitChild_eq_ok hc).mpr ⟨r, hr, ⟨by omega, hupper⟩, rfl⟩, trivial⟩)
    rw [getCallDepth, hchildren]
    dsimp only
    rw [hr]
    exact ⟨_, rfl⟩

theorem globalLoopDepths_returns (w : Walk) (b : Bool) {d : CallDepths} (hcalls : ∀ f c x, CallIn d.callDepths f c x → InInt x)
    (hloops : ∀ f x, LoopIn d.localLoopDepth f x → InInt x) : (∃ depths, globalLoopDepths w d b = .ok depths) ↔
      ∀ e, EntryIn d.callDepths b e → Fits (CallIn d.callDepths) (LoopIn d.localLoopDepth)
        (fun f => (d.callDepths.find f).isSome = true) ∅ e := by
  constructor
  · rintro ⟨depths, hdepths⟩ e he
    obtain ⟨g, g', hg⟩ := foldlM_ok_mem hdepths e (mem_entryPoints.mpr he)
    obtain ⟨r, hr, -⟩ := bind_eq_ok.mp hg
    exact fits_of_getCallDepth hloops hr
  · intro h
    have hcard : (unmarked d.callDepths ∅).card < d.callDepths.entries.length + 1 := by
      have hle := List.toFinset_card_le (d.callDepths.entries.map Prod.fst)
      rw [List.length_map] at hle
      rw [unmarked, Finset.sdiff_empty]
      omega
    have htotal : ∃ depths, globalLoopDepths w d b = .ok depths ∧ True := by
      refine foldlM_total (J := fun _ _ => True) trivial fun pre entry g hpre _ => ?_
      have hentry := mem_entryPoints.mp (hpre.subset (List.mem_append_right _ (List.mem_singleton_self entry)))
      obtain ⟨r, hr⟩ : ∃ r, getCallDepth w d.callDepths d.localLoopDepth (d.callDepths.entries.length + 1) ∅ entry g = .ok r :=
        getCallDepth_returns w hcalls _ ∅ entry g (Finset.notMem_empty _) hcard (h entry hentry)
      rw [hr]
      exact ⟨_, rfl, trivial⟩
    obtain ⟨depths, hdepths, -⟩ := htotal
    exact ⟨depths, hdepths⟩

end

/-! ## The calls of a graph -/

/-- `f` calls `c` in loops of depth `d`. -/
def Calls (cg : CG) (f c : String) (d : ℤ) : Prop :=
  ∃ val m, cg.find f = some val ∧ val.info.loopCallDepth = some m ∧
    (m.find c = some d ∨ (m.find c = none ∧ c ∈ val.callees ∧ d = 0))

def Loops (cg : CG) (f : String) (d : ℤ) : Prop := ∃ val, cg.find f = some val ∧ val.info.loopDepth = .value d

theorem Calls.names {cg : CG} {f c : String} {d : ℤ} (h : Calls cg f c d) : ∃ val, cg.find f = some val ∧ val.Names c := by
  obtain ⟨val, m, hf, hm, hd⟩ := h
  rcases hd with hd | ⟨-, hc, -⟩
  · exact ⟨val, hf, .inr ⟨m, d, hm, hd⟩⟩
  · exact ⟨val, hf, .inl hc⟩

/-- In a graph that names only its own functions no chain leads out of it. -/
theorem fits_iff {cg : CG} (hnamed : ∀ f val, cg.find f = some val → ∀ c, val.Names c → (cg.find c).isSome = true) {e : String}
    (he : (cg.find e).isSome = true) : Fits (Calls cg) (Loops cg) (fun f => (cg.find f).isSome = true) ∅ e ↔
      ∀ f x, NestOn (Calls cg) (Loops cg) ∅ e f x → x ≤ 2147483647 := by
  refine ⟨fun h f x hx => (h f x hx).2, fun h f x hx => ⟨?_, h f x hx⟩⟩
  obtain ⟨marked, hchain, -⟩ := hx
  refine hchain.last_of_called (P := fun f => (cg.find f).isSome = true) (fun f c d hd => ?_) he
  obtain ⟨val, hval, hc⟩ := hd.names
  exact hnamed f val hval c hc

theorem calledMap_eq_ok {val : Node} {loopDepth : ℤ} {called : Depths} (h : calledMap val = .ok (loopDepth, called)) :
    val.info.loopDepth = .value loopDepth ∧ ∃ m, val.info.loopCallDepth = some m ∧
      ∀ c, called.find c = (m.find c).or (if c ∈ val.callees then some 0 else none) := by
  unfold calledMap at h
  cases hdepth : val.info.loopDepth with
  | missing => rw [hdepth] at h; cases h
  | null => rw [hdepth] at h; cases h
  | value d =>
    rw [hdepth] at h
    dsimp only at h
    cases hm : val.info.loopCallDepth with
    | none => rw [hm] at h; cases h
    | some m =>
      rw [hm] at h
      cases h
      refine ⟨rfl, m, rfl, fun c => ?_⟩
      rw [OMap.find_foldl_insert (fun _ d => d) m.sorted.keys_nodup, Option.map_id']
      congr 1
      rw [OMap.find_foldl_emplace (fun e : String => e) (fun _ => (0 : ℤ)), OMap.find_empty, Option.none_or]
      split_ifs with hc
      · have hn : ((elements val.callees).map fun e => e).Nodup := by
          rw [List.map_id']
          exact elements_nodup _
        exact Ordered.find_map_self hn (mem_elements.mpr hc) fun _ => (0 : ℤ)
      · refine Ordered.find_eq_none_iff.mpr fun hmem => hc ?_
        rw [List.map_map] at hmem
        obtain ⟨e, he, rfl⟩ := List.mem_map.mp hmem
        exact mem_elements.mp he

/-- What has been read of a function. -/
def ReadFrom (st : CallDepths) (f : String) : Option Node → Prop
  | none => st.callDepths.find f = none ∧ st.localLoopDepth.find f = none
  | some val => ∃ loopDepth called, calledMap val = .ok (loopDepth, called) ∧ st.callDepths.find f = some called ∧
      st.localLoopDepth.find f = some loopDepth

theorem initCallDepths_readFrom {cg : CG} {d : CallDepths} (h : initCallDepths cg = .ok d) (f : String) :
    ReadFrom d f (cg.find f) := by
  refine foldlM_ok_inv (J := fun pre st => ∀ f, ReadFrom st f (Ordered.find f pre)) (fun f => ⟨rfl, rfl⟩) ?_ h f
  intro pre it st st' hpre hst hit f
  obtain ⟨⟨loopDepth, called⟩, hcalled, hit⟩ := bind_eq_ok.mp hit
  cases hit
  rw [Ordered.find_append]
  by_cases hf : f = it.1
  · subst hf
    have hn := cg.sorted.keys_nodup.sublist (hpre.sublist.map Prod.fst)
    rw [List.map_append, List.nodup_append] at hn
    have hnone : Ordered.find it.1 pre = none := by
      refine Ordered.find_eq_none_iff.mpr fun hmem => ?_
      exact hn.2.2 it.1 hmem it.1 (by simp) rfl
    rw [hnone, Option.none_or, Ordered.find, if_pos rfl]
    refine ⟨loopDepth, called, hcalled, ?_, ?_⟩
    · rw [OMap.find_insert, if_pos rfl]
    · rw [OMap.find_insert, if_pos rfl]
  · have hother : Ordered.find f [it] = none := Ordered.find_other hf
    have hsame : ∀ {val}, ReadFrom st f val → ReadFrom ⟨st.callDepths.insert it.1 called,
        st.localLoopDepth.insert it.1 loopDepth⟩ f val := by
      intro val hval
      cases val <;> simpa only [ReadFrom, OMap.find_insert, if_neg hf] using hval
    rw [hother, Option.or_none]
    exact hsame (hst f)

/-- The calls and the loops that are read from a graph. -/
theorem initCallDepths_eq_ok {cg : CG} {d : CallDepths} (h : initCallDepths cg = .ok d) :
    (∀ f c x, CallIn d.callDepths f c x ↔ Calls cg f c x) ∧ ∀ f x, LoopIn d.localLoopDepth f x ↔ Loops cg f x := by
  constructor
  · intro f c x
    have hread := initCallDepths_readFrom h f
    unfold CallIn Calls
    cases hf : cg.find f with
    | none =>
      rw [hf] at hread
      rw [hread.1]
      simp
    | some val =>
      rw [hf] at hread
      obtain ⟨loopDepth, called, hcalled, hfind, -⟩ := hread
      obtain ⟨-, m, hm, hall⟩ := calledMap_eq_ok hcalled
      simp only [hfind, hm, Option.some.injEq, exists_and_left, exists_eq_left', hall c]
      cases hmc : m.find c with
      | some y => simp
      | none =>
        by_cases hc : c ∈ val.callees
        · simp [hc, eq_comm]
        · simp [hc]
  · intro f x
    have hread := initCallDepths_readFrom h f
    unfold LoopIn Loops
    cases hf : cg.find f with
    | none =>
      rw [hf] at hread
      rw [hread.2]
      simp
    | some val =>
      rw [hf] at hread
      obtain ⟨loopDepth, called, hcalled, -, hfind⟩ := hread
      simp only [hfind, (calledMap_eq_ok hcalled).1, Option.some.injEq, exists_eq_left', Member.value.injEq]

/-! ## The result -/

/-- The depths that a function of the graph can get: the nests on chains from `main`, and its own loops. -/
def GlobalNest (calls : String → String → ℤ → Prop) (loops : String → ℤ → Prop) (hasMain : Prop) (f : String) (x : ℤ) : Prop :=
  x = 0 ∨ loops f x ∨ (hasMain ∧ NestOn calls loops ∅ "main" f x)

/-- One entry point. -/
theorem entry_records {calls : String → String → ℤ → Prop} {loops : String → ℤ → Prop} {found : String → ℤ → Prop}
    {entry : String} {g : Depths} {r : ℤ × Depths} (hg : Records .empty found g)
    (hfound : ∀ x, found entry x → Nest calls loops ∅ entry x) (h : Deepest calls loops ∅ entry g r) :
    Records .empty (fun f x => found f x ∨ NestOn calls loops ∅ entry f x) (r.2.insert entry r.1) := by
  refine (hg.trans h.2).overwrite ⟨.inr ⟨∅, .refl ∅ entry, h.1.1⟩, ?_⟩
  rintro x (hx | ⟨marked, -, hx⟩)
  · exact h.1.2 (hfound x hx)
  · exact h.1.2 (hx.subset (Finset.empty_subset marked))

theorem globalLoopDepths_eq_ok {w : Walk} {d : CallDepths} {b : Bool} {depths : Depths}
    (h : globalLoopDepths w d b = .ok depths) : Records .empty (fun f x => ∃ e, EntryIn d.callDepths b e ∧
      NestOn (CallIn d.callDepths) (LoopIn d.localLoopDepth) ∅ e f x) depths := by
  have hrec := foldlM_ok_inv (J := fun pre g => Records .empty
      (fun f x => ∃ e ∈ pre, NestOn (CallIn d.callDepths) (LoopIn d.localLoopDepth) ∅ e f x) g)
    ((Records.refl .empty).congr fun f x => ⟨False.elim, fun ⟨e, he, _⟩ => absurd he List.not_mem_nil⟩) (by
      intro pre entry g g' _ hg hstep
      obtain ⟨r, hr, hstep⟩ := bind_eq_ok.mp hstep
      cases hstep
      have hfound : ∀ x, (∃ e ∈ pre, NestOn (CallIn d.callDepths) (LoopIn d.localLoopDepth) ∅ e entry x) →
          Nest (CallIn d.callDepths) (LoopIn d.localLoopDepth) ∅ entry x := by
        rintro x ⟨e, -, marked, -, hnest⟩
        exact hnest.subset (Finset.empty_subset marked)
      refine (entry_records hg hfound (getCallDepth_deepest _ ∅ entry g r hr)).congr fun f x => ?_
      simp only [List.mem_append, List.mem_singleton, or_and_right, exists_or, exists_eq_left]) h
  exact hrec.congr fun f x => exists_congr fun e => and_congr_left fun _ => mem_entryPoints

/-- The functions from which the depths of a graph are computed. -/
def Entry (cg : CG) (useOnlyMainEntry : Bool) (f : String) : Prop :=
  (cg.find f).isSome = true ∧ if useOnlyMainEntry then f = "main" else ∀ k d, Calls cg k f d → f = k

theorem initCallDepths_isSome {cg : CG} {d : CallDepths} (h : initCallDepths cg = .ok d) (f : String) :
    (d.callDepths.find f).isSome = true ↔ (cg.find f).isSome = true := by
  have hread := initCallDepths_readFrom h f
  cases hval : cg.find f with
  | none =>
    rw [hval] at hread
    rw [hread.1]
    rfl
  | some val =>
    rw [hval] at hread
    obtain ⟨_, _, -, hfind, -⟩ := hread
    rw [hfind]
    rfl

theorem initCallDepths_entryIn {cg : CG} {d : CallDepths} (h : initCallDepths cg = .ok d) (b : Bool) (f : String) :
    EntryIn d.callDepths b f ↔ Entry cg b f := by
  refine and_congr (initCallDepths_isSome h f) ?_
  cases b with
  | true => rfl
  | false =>
    rw [if_neg Bool.false_ne_true, if_neg Bool.false_ne_true]
    constructor
    · intro hentry k x hx
      obtain ⟨children, hk, hfind⟩ := ((initCallDepths_eq_ok h).1 k f x).mpr hx
      exact hentry k children x hk hfind
    · intro hentry k children x hk hfind
      exact hentry k x (((initCallDepths_eq_ok h).1 k f x).mp ⟨children, hk, hfind⟩)

theorem Calls.inInt {cg : CG} (h : ∀ f val, cg.find f = some val → val.Measured) {f c : String} {d : ℤ}
    (hd : Calls cg f c d) : InInt d := by
  obtain ⟨val, m, hval, hm, hd⟩ := hd
  rcases hd with hd | ⟨-, -, rfl⟩
  · obtain ⟨-, m', -, hm', -, hall⟩ := h f val hval
    rw [hm] at hm'
    cases hm'
    exact hall c d hd
  · decide

theorem Loops.inInt {cg : CG} (h : ∀ f val, cg.find f = some val → val.Measured) {f : String} {d : ℤ} (hd : Loops cg f d) :
    InInt d := by
  obtain ⟨val, hval, hd⟩ := hd
  obtain ⟨d', -, hd', -, hint, -⟩ := h f val hval
  rw [hd] at hd'
  cases hd'
  exact hint

/-- A graph that carries loop metadata gets its global depths exactly if the chains from the entry points
stay in the graph and their nests fit into an `int`. -/
theorem calculateGlobalCallDepth_returns {cg : CG} (h : ∀ f val, cg.find f = some val → val.Measured) (w : Walk) (b : Bool) :
    (∃ cg', calculateGlobalCallDepth w cg b = .ok cg') ↔
      ∀ e, Entry cg b e → Fits (Calls cg) (Loops cg) (fun f => (cg.find f).isSome = true) ∅ e := by
  obtain ⟨d, hd⟩ := initCallDepths_of_measured h
  obtain ⟨hcalls, hloops⟩ := initCallDepths_eq_ok hd
  have hiff := globalLoopDepths_returns w b (d := d) (fun f c x hx => Calls.inInt h ((hcalls f c x).mp hx))
    fun f x hx => Loops.inInt h ((hloops f x).mp hx)
  have hcalls : CallIn d.callDepths = Calls cg := funext fun f => funext fun c => funext fun x => propext (hcalls f c x)
  have hloops : LoopIn d.localLoopDepth = Loops cg := funext fun f => funext fun x => propext (hloops f x)
  simp only [hcalls, hloops, initCallDepths_isSome hd, initCallDepths_entryIn hd] at hiff
  rw [← hiff, calculateGlobalCallDepth, hd, ok_bind]
  constructor
  · rintro ⟨cg', h⟩
    obtain ⟨depths, hdepths, -⟩ := bind_eq_ok.mp h
    exact ⟨depths, hdepths⟩
  · rintro ⟨depths, hdepths⟩
    rw [hdepths]
    exact ⟨_, rfl⟩

/-- The depths of the nests on the chains from the entry points are recorded, and written to the functions. -/
theorem calculateGlobalCallDepth_records {w : Walk} {cg cg' : CG} {b : Bool} (h : calculateGlobalCallDepth w cg b = .ok cg') :
    ∃ depths, cg' = cg.mapValues (globalLoopDepth depths) ∧
      Records .empty (fun f x => ∃ e, Entry cg b e ∧ NestOn (Calls cg) (Loops cg) ∅ e f x) depths ∧
      ∀ f val, cg.find f = some val → ∃ loopDepth, val.info.loopDepth = .value loopDepth := by
  obtain ⟨d, hd, h⟩ := bind_eq_ok.mp h
  obtain ⟨depths, hdepths, h⟩ := bind_eq_ok.mp h
  cases h
  obtain ⟨hcalls, hloops⟩ := initCallDepths_eq_ok hd
  have hcalls : CallIn d.callDepths = Calls cg := funext fun f => funext fun c => funext fun x => propext (hcalls f c x)
  have hloops : LoopIn d.localLoopDepth = Loops cg := funext fun f => funext fun x => propext (hloops f x)
  have hrec := globalLoopDepths_eq_ok hdepths
  rw [hcalls, hloops] at hrec
  refine ⟨depths, rfl, hrec.congr fun f x => exists_congr fun e => and_congr_left fun _ => initCallDepths_entryIn hd b e, ?_⟩
  intro f val hval
  have hread := initCallDepths_readFrom hd f
  rw [hval] at hread
  obtain ⟨loopDepth, called, hcalled, -, -⟩ := hread
  exact ⟨loopDepth, (calledMap_eq_ok hcalled).1⟩

/-- What is written to a function. -/
theorem isGreatest_recorded {found : String → ℤ → Prop} {depths : Depths} (h : Records .empty found depths) (f : String)
    (loopDepth : ℤ) (hnested : ∀ x, found f x → found f 0) :
    IsGreatest {x | x = 0 ∨ x = loopDepth ∨ found f x} (max ((depths.find f).getD 0) loopDepth) := by
  constructor
  · rcases max_choice ((depths.find f).getD 0) loopDepth with hmax | hmax
    · rw [hmax]
      cases hfind : depths.find f with
      | none => exact .inl rfl
      | some y => exact .inr (.inr ((h.find_iff f y).mp hfind).1)
    · rw [hmax]
      exact .inr (.inl rfl)
  · have hfound : ∀ x, found f x → x ≤ (depths.find f).getD 0 := by
      intro x hx
      obtain ⟨y, hy, hxy⟩ := h.found f x hx
      rw [hy]
      exact hxy
    rintro x (rfl | rfl | hx)
    · refine le_trans ?_ (le_max_left _ loopDepth)
      cases hfind : depths.find f with
      | none => exact le_rfl
      | some y =>
        have hzero := hnested y ((h.find_iff f y).mp hfind).1
        rw [← hfind]
        exact hfound 0 hzero
    · exact le_max_right _ _
    · exact (hfound x hx).trans (le_max_left _ _)

/-- The global depth of a function is that of the deepest of these nests. -/
theorem calculateGlobalCallDepth_isGreatest {w : Walk} {cg cg' : CG} (h : calculateGlobalCallDepth w cg true = .ok cg')
    {f : String} {val' : Node} (hf : cg'.find f = some val') : ∃ x, val'.info.globalLoopDepth = some x ∧
      IsGreatest {x | GlobalNest (Calls cg) (Loops cg) ((cg.find "main").isSome = true) f x} x := by
  obtain ⟨depths, rfl, hrec, hloops⟩ := calculateGlobalCallDepth_records h
  rw [OMap.find_mapValues] at hf
  obtain ⟨val, hval, rfl⟩ := Option.map_eq_some_iff.mp hf
  obtain ⟨loopDepth, hdepth⟩ := hloops f val hval
  have hloop : ∀ x, Loops cg f x ↔ x = loopDepth := by
    intro x
    unfold Loops
    rw [hval]
    simp [hdepth, eq_comm]
  refine ⟨max ((depths.find f).getD 0) loopDepth, by rw [globalLoopDepth, hdepth], ?_⟩
  have hgreatest := isGreatest_recorded hrec f loopDepth (by
    rintro x ⟨e, he, marked, hchain, -⟩
    exact ⟨e, he, marked, hchain, .flat marked f⟩)
  have hset : {x | GlobalNest (Calls cg) (Loops cg) ((cg.find "main").isSome = true) f x} =
      {x | x = 0 ∨ x = loopDepth ∨ ∃ e, Entry cg true e ∧ NestOn (Calls cg) (Loops cg) ∅ e f x} := by
    refine Set.ext fun x => or_congr_right (or_congr (hloop x) ?_)
    simp only [Entry, if_true]
    exact ⟨fun hx => ⟨"main", ⟨hx.1, rfl⟩, hx.2⟩, fun ⟨e, ⟨he, hmain⟩, hx⟩ => by subst hmain; exact ⟨he, hx⟩⟩
  rw [hset]
  exact hgreatest

end MetaCG.FormatTwo
