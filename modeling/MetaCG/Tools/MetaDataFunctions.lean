import Mathlib.Algebra.Order.BigOperators.Group.List
import Mathlib.Algebra.Order.Ring.Nat
import Mathlib.Logic.Relation

/-! The number of statements of a function (`MetaDataFunctions.cpp`).

A `Stmt` is a pointer to a node of the syntax tree, of which only the children that the counter may visit are kept. -/
namespace MetaCG.Tools
set_option autoImplicit false
set_option maxHeartbeats 250000
set_option maxRecDepth 120000

mutual

inductive Stmt where
  | nullptr
  | compoundStmt (s : CompoundStmt)
  | ifStmt (s : IfStmt)
  | forStmt (s : ForStmt)
  | whileStmt (s : WhileStmt)
  | cxxForRangeStmt (s : CXXForRangeStmt)
  | doStmt (s : DoStmt)
  | cxxTryStmt (s : CXXTryStmt)
  | switchStmt (s : SwitchStmt)
  | caseStmt (s : CaseStmt)
  | defaultStmt (s : DefaultStmt)
  | nullStmt
  | lambdaExpr
  /-- a statement of any other class -/
  | leaf

inductive CompoundStmt where
  | mk (body : List Stmt)

inductive IfStmt where
  | mk (then_ else_ : Stmt)

inductive ForStmt where
  | mk (body : Stmt)

inductive WhileStmt where
  | mk (body : Stmt)

inductive CXXForRangeStmt where
  | mk (body : Stmt)

inductive DoStmt where
  | mk (body : Stmt)

inductive CXXTryStmt where
  | mk (tryBlock : CompoundStmt) (handlers : List CXXCatchStmt)

inductive CXXCatchStmt where
  | mk (handlerBlock : Stmt)

/-- The children are the condition and the body, with what is declared in front of them. -/
inductive SwitchStmt where
  | mk (children : List Stmt)

inductive CaseStmt where
  | mk (subStmt : Stmt)

inductive DefaultStmt where
  | mk (subStmt : Stmt)

end

def Stmt.isNull : Stmt → Bool
  | .nullptr => true
  | _ => false

mutual

-- There is a branch for the sub-statement of a case label, and none for that of a default label.
def getNumStmtsInStmt : Stmt → ℕ
  | .nullptr => 0
  | .compoundStmt cpst => getNumStmtsInCompoundStmt cpst
  | .ifStmt is => getNumStmtsInIfStmt is
  | .forStmt fs => getNumStmtsInForStmt fs
  | .whileStmt ws => getNumStmtsInWhileStmt ws
  | .cxxForRangeStmt frs => getNumStmtsInCXXForRangeStmt frs
  | .doStmt ds => getNumStmtsInDoStmt ds
  | .cxxTryStmt tryst => getNumStmtsInTryStmt tryst
  | .switchStmt scStmt => getNumStmtsInSwitchCase scStmt
  | .caseStmt cStmt => getNumStmtsInCaseStmt cStmt
  | .nullStmt => 0
  | .lambdaExpr => 0
  | .defaultStmt _ => 0
  | .leaf => 1

/-- A loop over statements that adds up their numbers. -/
def getNumStmtsInStmts : List Stmt → ℕ
  | [] => 0
  | stmt :: stmts => getNumStmtsInStmt stmt + getNumStmtsInStmts stmts

def getNumStmtsInSwitchCase : SwitchStmt → ℕ
  | .mk children => 1 + getNumStmtsInStmts children

def getNumStmtsInCaseStmt : CaseStmt → ℕ
  | .mk subStmt => getNumStmtsInStmt subStmt

def getNumStmtsInTryStmt : CXXTryStmt → ℕ
  | .mk tryBlock handlers => 1 + getNumStmtsInCompoundStmt tryBlock + getNumStmtsInCatchStmts handlers

/-- The loop over the handlers. -/
def getNumStmtsInCatchStmts : List CXXCatchStmt → ℕ
  | [] => 0
  | catchst :: handlers => getNumStmtsInCatchStmt catchst + getNumStmtsInCatchStmts handlers

def getNumStmtsInCatchStmt : CXXCatchStmt → ℕ
  | .mk handlerBlock => 1 + getNumStmtsInStmt handlerBlock

def getNumStmtsInCompoundStmt : CompoundStmt → ℕ
  | .mk body => getNumStmtsInStmts body

def getNumStmtsInIfStmt : IfStmt → ℕ
  | .mk then_ else_ =>
    1 + (if then_.isNull then 0 else getNumStmtsInStmt then_) + if else_.isNull then 0 else getNumStmtsInStmt else_

def getNumStmtsInForStmt : ForStmt → ℕ
  | .mk body => 1 + if body.isNull then 0 else getNumStmtsInStmt body

def getNumStmtsInWhileStmt : WhileStmt → ℕ
  | .mk body => 1 + if body.isNull then 0 else getNumStmtsInStmt body

def getNumStmtsInCXXForRangeStmt : CXXForRangeStmt → ℕ
  | .mk body => 1 + if body.isNull then 0 else getNumStmtsInStmt body

def getNumStmtsInDoStmt : DoStmt → ℕ
  | .mk body => 1 + if body.isNull then 0 else getNumStmtsInStmt body

end

/-! ## What is to be counted

The number of leaves and of the constructs that count one each, over all statements of the tree. -/

/-- What a statement counts by itself; a `try` counts one more for each of its handlers. -/
def Stmt.weight : Stmt → ℕ
  | .leaf => 1
  | .ifStmt _ | .forStmt _ | .whileStmt _ | .cxxForRangeStmt _ | .doStmt _ | .switchStmt _ => 1
  | .cxxTryStmt (.mk _ handlers) => 1 + handlers.length
  | .nullptr | .compoundStmt _ | .caseStmt _ | .defaultStmt _ | .nullStmt | .lambdaExpr => 0

def CXXCatchStmt.handlerBlock : CXXCatchStmt → Stmt
  | .mk handlerBlock => handlerBlock

/-- The statements directly below a statement. -/
def Stmt.subStmts : Stmt → List Stmt
  | .compoundStmt (.mk body) => body
  | .ifStmt (.mk then_ else_) => [then_, else_]
  | .forStmt (.mk body) | .whileStmt (.mk body) | .cxxForRangeStmt (.mk body) | .doStmt (.mk body) => [body]
  | .cxxTryStmt (.mk (.mk body) handlers) => body ++ handlers.map CXXCatchStmt.handlerBlock
  | .switchStmt (.mk children) => children
  | .caseStmt (.mk subStmt) | .defaultStmt (.mk subStmt) => [subStmt]
  | .nullptr | .nullStmt | .lambdaExpr | .leaf => []

theorem Stmt.sizeOf_lt {s t : Stmt} (h : t ∈ s.subStmts) : sizeOf t < sizeOf s := by
  cases s with
  | compoundStmt c =>
    obtain ⟨body⟩ := c
    have hlt : sizeOf t < sizeOf body := List.sizeOf_lt_of_mem h
    simp
    omega
  | switchStmt c =>
    obtain ⟨children⟩ := c
    have hlt : sizeOf t < sizeOf children := List.sizeOf_lt_of_mem h
    simp
    omega
  | cxxTryStmt c =>
    obtain ⟨⟨body⟩, handlers⟩ := c
    rcases List.mem_append.mp h with h | h
    · have := List.sizeOf_lt_of_mem h
      simp
      omega
    · obtain ⟨⟨block⟩, hc, rfl⟩ := List.mem_map.mp h
      have := List.sizeOf_lt_of_mem hc
      simp [CXXCatchStmt.handlerBlock] at this ⊢
      omega
  | ifStmt c =>
    obtain ⟨then_, else_⟩ := c
    simp [subStmts] at h
    rcases h with rfl | rfl
    · simp
      omega
    · simp
      omega
  | forStmt c | whileStmt c | cxxForRangeStmt c | doStmt c | caseStmt c | defaultStmt c =>
    obtain ⟨body⟩ := c
    rw [List.mem_singleton.mp h]
    simp
    omega
  | nullptr | nullStmt | lambdaExpr | leaf => exact absurd h List.not_mem_nil

/-- The sum over all statements of the tree. -/
def Stmt.count (s : Stmt) : ℕ := s.weight + (s.subStmts.attach.map fun t => count t.1).sum
termination_by sizeOf s
decreasing_by exact Stmt.sizeOf_lt t.2

theorem Stmt.count_eq (s : Stmt) : s.count = s.weight + (s.subStmts.map Stmt.count).sum := by
  rw [count, List.attach_map_val]

theorem Stmt.induction {P : Stmt → Prop} (step : ∀ s, (∀ t ∈ s.subStmts, P t) → P s) (s : Stmt) : P s :=
  step s fun t _ht => Stmt.induction step t
termination_by sizeOf s
decreasing_by exact Stmt.sizeOf_lt _ht

/-- `t` is `s` or stands somewhere below it. -/
def Within (s t : Stmt) : Prop := Relation.ReflTransGen (fun s t => t ∈ s.subStmts) s t

theorem within_iff {s t : Stmt} : Within s t ↔ t = s ∨ ∃ u ∈ s.subStmts, Within u t :=
  Relation.ReflTransGen.cases_head_iff.trans (or_congr_left eq_comm)

theorem Stmt.count_eq_zero (s : Stmt) : s.count = 0 ↔ ∀ t, Within s t → t.weight = 0 := by
  induction s using Stmt.induction with
  | step s ih =>
    rw [count_eq, Nat.add_eq_zero_iff, List.sum_eq_zero_iff]
    simp only [List.mem_map, forall_exists_index, and_imp, forall_apply_eq_imp_iff₂]
    constructor
    · rintro ⟨hs, hsub⟩ t ht
      rcases within_iff.mp ht with rfl | ⟨u, hu, hut⟩
      · exact hs
      · exact (ih u hu).mp (hsub u hu) t hut
    · intro hall
      exact ⟨hall s .refl, fun u hu => (ih u hu).mpr fun t ht => hall t (within_iff.mpr (.inr ⟨u, hu, ht⟩))⟩

/-- Only compounds, labels and null statements stand below a default label. -/
def DefaultsEmpty (s : Stmt) : Prop := ∀ subStmt t, Within s (.defaultStmt (.mk subStmt)) → Within subStmt t → t.weight = 0

theorem defaultsEmpty_default (subStmt : Stmt) : DefaultsEmpty (.defaultStmt (.mk subStmt)) ↔ subStmt.count = 0 := by
  rw [Stmt.count_eq_zero]
  refine ⟨fun h t => h subStmt t .refl, fun h subStmt' t hd ht => ?_⟩
  rcases within_iff.mp hd with heq | ⟨u, hu, hud⟩
  · cases heq
    exact h t ht
  · rw [List.mem_singleton.mp hu] at hud
    exact h t (hud.trans (within_iff.mpr (.inr ⟨subStmt', List.mem_singleton_self _, ht⟩)))

theorem defaultsEmpty_iff {s : Stmt} (h : ∀ d, s ≠ .defaultStmt d) : DefaultsEmpty s ↔ ∀ t ∈ s.subStmts, DefaultsEmpty t := by
  constructor
  · exact fun hs t ht subStmt u hd hu => hs subStmt u (within_iff.mpr (.inr ⟨t, ht, hd⟩)) hu
  · intro hsub subStmt u hd hu
    rcases within_iff.mp hd with heq | ⟨t, ht, hd⟩
    · exact absurd heq.symm (h _)
    · exact hsub t ht subStmt u hd hu

/-! ## What is counted -/

theorem getNumStmtsInStmts_eq (l : List Stmt) : getNumStmtsInStmts l = (l.map getNumStmtsInStmt).sum := by
  induction l with
  | nil => rfl
  | cons s l ih => rw [getNumStmtsInStmts, ih, List.map_cons, List.sum_cons]

theorem getNumStmtsInCatchStmts_eq (l : List CXXCatchStmt) :
    getNumStmtsInCatchStmts l = l.length + ((l.map CXXCatchStmt.handlerBlock).map getNumStmtsInStmt).sum := by
  induction l with
  | nil => rfl
  | cons c l ih =>
    obtain ⟨block⟩ := c
    rw [getNumStmtsInCatchStmts, getNumStmtsInCatchStmt, ih, List.length_cons, List.map_cons, List.map_cons, List.sum_cons,
      CXXCatchStmt.handlerBlock]
    omega

theorem getNumStmtsInStmt_of_nonNull (s : Stmt) : (if s.isNull then 0 else getNumStmtsInStmt s) = getNumStmtsInStmt s := by
  cases s <;> rfl

/-- Apart from a default label, a statement counts itself and what the statements below it count. -/
theorem getNumStmtsInStmt_eq {s : Stmt} (h : ∀ d, s ≠ .defaultStmt d) :
    getNumStmtsInStmt s = s.weight + (s.subStmts.map getNumStmtsInStmt).sum := by
  cases s with
  | compoundStmt c =>
    obtain ⟨body⟩ := c
    rw [getNumStmtsInStmt, getNumStmtsInCompoundStmt, getNumStmtsInStmts_eq, Stmt.weight, Stmt.subStmts, Nat.zero_add]
  | ifStmt c =>
    obtain ⟨then_, else_⟩ := c
    rw [getNumStmtsInStmt, getNumStmtsInIfStmt, getNumStmtsInStmt_of_nonNull, getNumStmtsInStmt_of_nonNull]
    simp [Stmt.weight, Stmt.subStmts]
    omega
  | forStmt c =>
    obtain ⟨body⟩ := c
    rw [getNumStmtsInStmt, getNumStmtsInForStmt, getNumStmtsInStmt_of_nonNull]
    simp [Stmt.weight, Stmt.subStmts]
  | whileStmt c =>
    obtain ⟨body⟩ := c
    rw [getNumStmtsInStmt, getNumStmtsInWhileStmt, getNumStmtsInStmt_of_nonNull]
    simp [Stmt.weight, Stmt.subStmts]
  | cxxForRangeStmt c =>
    obtain ⟨body⟩ := c
    rw [getNumStmtsInStmt, getNumStmtsInCXXForRangeStmt, getNumStmtsInStmt_of_nonNull]
    simp [Stmt.weight, Stmt.subStmts]
  | doStmt c =>
    obtain ⟨body⟩ := c
    rw [getNumStmtsInStmt, getNumStmtsInDoStmt, getNumStmtsInStmt_of_nonNull]
    simp [Stmt.weight, Stmt.subStmts]
  | cxxTryStmt c =>
    obtain ⟨⟨body⟩, handlers⟩ := c
    rw [getNumStmtsInStmt, getNumStmtsInTryStmt, getNumStmtsInCompoundStmt, getNumStmtsInStmts_eq, getNumStmtsInCatchStmts_eq,
      Stmt.weight, Stmt.subStmts, List.map_append, List.sum_append]
    omega
  | switchStmt c =>
    obtain ⟨children⟩ := c
    rw [getNumStmtsInStmt, getNumStmtsInSwitchCase, getNumStmtsInStmts_eq, Stmt.weight, Stmt.subStmts]
  | caseStmt c =>
    obtain ⟨subStmt⟩ := c
    rw [getNumStmtsInStmt, getNumStmtsInCaseStmt]
    simp [Stmt.weight, Stmt.subStmts]
  | defaultStmt d => exact absurd rfl (h d)
  | nullptr | nullStmt | lambdaExpr | leaf => rfl

theorem sum_map_eq_iff {α : Type} {f g : α → ℕ} {l : List α} (h : ∀ a ∈ l, f a ≤ g a) :
    (l.map f).sum ≤ (l.map g).sum ∧ ((l.map f).sum = (l.map g).sum ↔ ∀ a ∈ l, f a = g a) := by
  induction l with
  | nil => simp
  | cons a l ih =>
    rw [List.forall_mem_cons] at h
    obtain ⟨hle, heq⟩ := ih h.2
    rw [List.map_cons, List.map_cons, List.sum_cons, List.sum_cons, List.forall_mem_cons, ← heq]
    omega

theorem getNumStmtsInStmt_count (s : Stmt) :
    getNumStmtsInStmt s ≤ s.count ∧ (getNumStmtsInStmt s = s.count ↔ DefaultsEmpty s) := by
  induction s using Stmt.induction with
  | step s ih =>
    rw [Stmt.count_eq]
    by_cases hd : ∃ d, s = .defaultStmt d
    · obtain ⟨⟨subStmt⟩, rfl⟩ := hd
      rw [defaultsEmpty_default, getNumStmtsInStmt]
      simp [Stmt.weight, Stmt.subStmts, eq_comm]
    · rw [not_exists] at hd
      obtain ⟨hle, heq⟩ := sum_map_eq_iff fun t ht => (ih t ht).1
      rw [getNumStmtsInStmt_eq hd, defaultsEmpty_iff hd, Nat.add_right_inj, heq]
      exact ⟨by omega, forall₂_congr fun t ht => (ih t ht).2⟩

/-- Every statement is counted if and only if nothing that counts stands below a default label. -/
theorem getNumStmtsInStmt_complete_iff (s : Stmt) : getNumStmtsInStmt s = s.count ↔ DefaultsEmpty s := (getNumStmtsInStmt_count s).2

/-- The statement behind `default:` is lost. -/
theorem getNumStmtsInStmt_default :
    getNumStmtsInStmt (.switchStmt (.mk [.leaf, .compoundStmt (.mk [.defaultStmt (.mk .leaf)])])) = 2 ∧
      Stmt.count (.switchStmt (.mk [.leaf, .compoundStmt (.mk [.defaultStmt (.mk .leaf)])])) = 3 := by
  refine ⟨by decide, ?_⟩
  simp [Stmt.count_eq, Stmt.weight, Stmt.subStmts]

end MetaCG.Tools
