import MetaCG.Foundations.Outcome
import MetaCG.Tools.JSONManager

/-! The global loop depths (`GlobalCallDepth.cpp`).

`llvm::StringMap`s are maps by key; `Walk` is the order in which they are walked. Depths are `int`s: a
sum that does not fit ends the run. A call of `getCallDepth` marks a node that is not marked, so the number of
nodes bounds how deep the calls nest. -/
namespace MetaCG.FormatTwo
open Foundations
set_option autoImplicit false
set_option maxHeartbeats 250000
set_option maxRecDepth 120000

inductive DepthError where
  | assertion (condition : String)
  /-- `nlohmann::json::type_error` -/
  | typeError
  /-- a sum that is no `int`; what the program does then is undefined -/
  | overflow
  | outOfFuel
deriving DecidableEq, Repr

/-- The values of type `int`. -/
def InInt (x : ℤ) : Prop := -2147483648 ≤ x ∧ x ≤ 2147483647

instance (x : ℤ) : Decidable (InInt x) := inferInstanceAs (Decidable (_ ∧ _))

/-- `a + b` for `int`s. -/
def addInt (a b : ℤ) : Except DepthError ℤ := if InInt (a + b) then .ok (a + b) else .error .overflow

theorem addInt_eq_ok {a b c : ℤ} : addInt a b = .ok c ↔ InInt (a + b) ∧ c = a + b := by
  unfold addInt
  split_ifs with h
  · simp [h, eq_comm]
  · simp [h]

/-- An order in which the entries of string maps are walked. -/
structure Walk where
  order : ∀ {α : Type}, List α → List α
  perm : ∀ {α : Type} (l : List α), (order l).Perm l

abbrev Depths := OMap String ℤ

/-- One child of the loop in `getCallDepth`, with the call for it as an argument. -/
def visitChild (call : String → Depths → Except DepthError (ℤ × Depths)) (visited : Finset String) (acc : ℤ × Depths)
    (child : String × ℤ) : Except DepthError (ℤ × Depths) :=
  if child.1 ∈ visited then .ok acc
  else do
    let (depth, globalLoopDepth) ← call child.1 acc.2
    let childDepth ← addInt child.2 depth
    return (max acc.1 childDepth, globalLoopDepth)

/-- The mark of `entry` is removed on return, so the caller's marks are an argument only. -/
def getCallDepth (w : Walk) (callDepths : OMap String Depths) (localLoopDepth : Depths) :
    ℕ → Finset String → String → Depths → Except DepthError (ℤ × Depths)
  | 0, _, _, _ => .error .outOfFuel
  | fuel + 1, visited, entry, globalLoopDepth =>
    match callDepths.find entry with
    | none => .error (.assertion "childrenit != callDepths.end()")
    | some children => do
      let (maxChildDepth, globalLoopDepth) ← (w.order children.entries).foldlM
        (visitChild (getCallDepth w callDepths localLoopDepth fuel (insert entry visited)) (insert entry visited))
        (0, globalLoopDepth)
      let loopDepth := max maxChildDepth ((localLoopDepth.find entry).getD 0)
      return (loopDepth, globalLoopDepth.insertWith max entry loopDepth)

/-! ## The graph that the calls walk -/

/-- The `"loopDepth"` of a function and its `called` map. -/
def calledMap (val : Node) : Except DepthError (ℤ × Depths) :=
  match val.info.loopDepth with
  | .missing => .error (.assertion "metaval.count(\"loopDepth\") == 1")
  | .null => .error .typeError
  | .value loopDepth =>
    let called := (elements val.callees).foldl (fun m c => m.emplace c 0) OMap.empty
    match val.info.loopCallDepth with
    | none => .error (.assertion "metaval.count(\"loopCallDepth\") == 1")
    | some loopCallDepth => .ok (loopDepth, loopCallDepth.entries.foldl (fun m e => m.insert e.1 e.2) called)

structure CallDepths where
  callDepths : OMap String Depths
  localLoopDepth : Depths
deriving DecidableEq

def initCallDepths (cg : CG) : Except DepthError CallDepths :=
  cg.entries.foldlM (fun st it => do
    let (loopDepth, called) ← calledMap it.2
    return ⟨st.callDepths.insert it.1 called, st.localLoopDepth.insert it.1 loopDepth⟩) ⟨.empty, .empty⟩

/-- The functions that no other function calls. -/
def uncalled (callDepths : OMap String Depths) : OMap String Bool :=
  callDepths.entries.foldl (fun called caller =>
    caller.2.entries.foldl (fun called callee => if callee.1 ≠ caller.1 then called.insert callee.1 true else called)
      (called.emplace caller.1 false)) .empty

def entryPoints (w : Walk) (callDepths : OMap String Depths) (useOnlyMainEntry : Bool) : List String :=
  if useOnlyMainEntry then if (callDepths.find "main").isSome then ["main"] else []
  else ((w.order (uncalled callDepths).entries).filter fun f => !f.2).map Prod.fst

/-- The depths that the calls from the entry points leave. -/
def globalLoopDepths (w : Walk) (d : CallDepths) (useOnlyMainEntry : Bool) : Except DepthError Depths :=
  (entryPoints w d.callDepths useOnlyMainEntry).foldlM (fun globalLoopDepth entry => do
    let (depth, globalLoopDepth) ←
      getCallDepth w d.callDepths d.localLoopDepth (d.callDepths.entries.length + 1) ∅ entry globalLoopDepth
    return globalLoopDepth.insert entry depth) .empty

/-- `"globalLoopDepth"` of a function whose `"loopDepth"` has been read before. -/
def globalLoopDepth (depths : Depths) (key : String) (val : Node) : Node :=
  match val.info.loopDepth with
  | .value loopDepth =>
    { val with info := { val.info with globalLoopDepth := some (max ((depths.find key).getD 0) loopDepth) } }
  | _ => val

def calculateGlobalCallDepth (w : Walk) (cg : CG) (useOnlyMainEntry : Bool) : Except DepthError CG := do
  let d ← initCallDepths cg
  let depths ← globalLoopDepths w d useOnlyMainEntry
  return cg.mapValues (globalLoopDepth depths)

/-! ## Entry points -/

/-- The functions from which the depths are computed. -/
def EntryIn (callDepths : OMap String Depths) (useOnlyMainEntry : Bool) (f : String) : Prop :=
  (callDepths.find f).isSome = true ∧ if useOnlyMainEntry then f = "main"
    else ∀ k children d, callDepths.find k = some children → children.find f = some d → f = k

theorem find_markCallees (k : String) (l : List (String × ℤ)) (called : OMap String Bool) (f : String) :
    (l.foldl (fun called callee => if callee.1 ≠ k then called.insert callee.1 true else called) called).find f =
      if f ≠ k ∧ f ∈ l.map Prod.fst then some true else called.find f := by
  induction l generalizing called with
  | nil => rw [List.foldl_nil, if_neg fun h => List.not_mem_nil h.2]
  | cons callee l ih =>
    rw [List.foldl_cons, ih, List.map_cons]
    by_cases hl : f ≠ k ∧ f ∈ l.map Prod.fst
    · rw [if_pos hl, if_pos ⟨hl.1, List.mem_cons_of_mem _ hl.2⟩]
    · rw [if_neg hl]
      by_cases hc : f = callee.1
      · subst hc
        by_cases hk : callee.1 = k
        · rw [if_neg (not_not_intro hk), if_neg fun h => h.1 hk]
        · rw [if_pos hk, if_pos ⟨hk, List.mem_cons_self⟩, OMap.find_insert, if_pos rfl]
      · have hcons : ¬(f ≠ k ∧ f ∈ callee.1 :: l.map Prod.fst) := fun h => hl ⟨h.1, List.mem_of_ne_of_mem hc h.2⟩
        rw [if_neg hcons]
        by_cases hk : callee.1 = k
        · rw [if_neg (not_not_intro hk)]
        · rw [if_pos hk, OMap.find_insert, if_neg hc]

/-- A function is left unmarked if it is a key and no other function calls it. -/
theorem find_uncalled (callDepths : OMap String Depths) (f : String) : (uncalled callDepths).find f = some false ↔
    EntryIn callDepths false f := by
  have key : ∀ (l : List (String × Depths)) (called : OMap String Bool),
      (l.foldl (fun called caller =>
        caller.2.entries.foldl (fun called callee => if callee.1 ≠ caller.1 then called.insert callee.1 true else called)
          (called.emplace caller.1 false)) called).find f = some false ↔
        (called.find f = some false ∨ (called.find f = none ∧ f ∈ l.map Prod.fst)) ∧
          ∀ caller ∈ l, f ∈ caller.2.entries.map Prod.fst → f = caller.1 := by
    intro l
    induction l with
    | nil => intro called; simp
    | cons caller l ih =>
      intro called
      rw [List.foldl_cons, ih, find_markCallees, OMap.find_emplace, List.forall_mem_cons, List.map_cons, List.mem_cons]
      by_cases hcall : f ≠ caller.1 ∧ f ∈ caller.2.entries.map Prod.fst
      · rw [if_pos hcall]
        simp [hcall.1, hcall.2]
      · have hfirst : f ∈ caller.2.entries.map Prod.fst → f = caller.1 := fun h => by_contra fun hne => hcall ⟨hne, h⟩
        rw [if_neg hcall, ← and_assoc, and_congr_left_iff]
        intro _
        rw [and_iff_left hfirst]
        cases called.find f with
        | some v => simp
        | none =>
          by_cases hf : f = caller.1 <;> simp [hf]
  rw [uncalled, key]
  unfold EntryIn
  refine and_congr ?_ ?_
  · simp only [OMap.find_empty, reduceCtorEq, false_or, true_and, List.mem_map, Option.isSome_iff_exists]
    constructor
    · rintro ⟨e, he, rfl⟩
      exact ⟨e.2, OMap.mem_entries.mp he⟩
    · rintro ⟨v, hv⟩
      exact ⟨(f, v), OMap.mem_entries.mpr hv, rfl⟩
  · rw [if_neg Bool.false_ne_true]
    constructor
    · intro h k children d hk hd
      exact h (k, children) (OMap.mem_entries.mpr hk) (List.mem_map.mpr ⟨(f, d), OMap.mem_entries.mpr hd, rfl⟩)
    · intro h caller hcaller hf
      obtain ⟨e, he, rfl⟩ := List.mem_map.mp hf
      exact h caller.1 caller.2 e.2 (OMap.mem_entries.mp hcaller) (OMap.mem_entries.mp he)

theorem mem_entryPoints {w : Walk} {callDepths : OMap String Depths} {b : Bool} {f : String} :
    f ∈ entryPoints w callDepths b ↔ EntryIn callDepths b f := by
  unfold entryPoints
  cases b with
  | true =>
    unfold EntryIn
    simp only [if_true]
    split_ifs with hmain
    · rw [List.mem_singleton]
      exact ⟨fun h => ⟨by rw [h]; exact hmain, h⟩, fun h => h.2⟩
    · exact ⟨fun h => absurd h List.not_mem_nil, fun h => absurd (h.2 ▸ h.1) hmain⟩
  | false =>
    rw [if_neg Bool.false_ne_true, ← find_uncalled, ← OMap.mem_entries, List.mem_map]
    constructor
    · rintro ⟨e, he, rfl⟩
      rw [List.mem_filter, (w.perm _).mem_iff, Bool.not_eq_true'] at he
      rw [← he.2]
      exact he.1
    · intro h
      exact ⟨(f, false), List.mem_filter.mpr ⟨(w.perm _).mem_iff.mpr h, rfl⟩, rfl⟩

/-- The function carries loop metadata, whose numbers are `int`s. -/
def Node.Measured (val : Node) : Prop :=
  ∃ loopDepth loopCallDepth, val.info.loopDepth = .value loopDepth ∧ val.info.loopCallDepth = some loopCallDepth ∧
    InInt loopDepth ∧ ∀ c d, loopCallDepth.find c = some d → InInt d

/-- The functions that the node names as called. -/
def Node.Names (val : Node) (c : String) : Prop :=
  c ∈ val.callees ∨ ∃ m d, val.info.loopCallDepth = some m ∧ m.find c = some d

theorem calledMap_of_measured {val : Node} (h : val.Measured) : ∃ r, calledMap val = .ok r := by
  obtain ⟨ld, lcd, hld, hlcd, -⟩ := h
  rw [calledMap, hld]
  dsimp only
  rw [hlcd]
  exact ⟨_, rfl⟩

/-- The calls of a graph that carries loop metadata can be read. -/
theorem initCallDepths_of_measured {cg : CG} (h : ∀ k val, cg.find k = some val → val.Measured) :
    ∃ d, initCallDepths cg = .ok d := by
  obtain ⟨d, hd, -⟩ := foldlM_total (J := fun _ _ => True) (l := cg.entries) (s := (⟨.empty, .empty⟩ : CallDepths)) trivial
    (f := fun (st : CallDepths) it => (do
      let (loopDepth, called) ← calledMap it.2
      return ⟨st.callDepths.insert it.1 called, st.localLoopDepth.insert it.1 loopDepth⟩ : Except DepthError CallDepths))
    (fun pre it st hpre _ => by
      have hit : it ∈ cg.entries := hpre.subset (List.mem_append_right _ (List.mem_singleton_self it))
      obtain ⟨r, hr⟩ := calledMap_of_measured (h it.1 it.2 (OMap.mem_entries.mp hit))
      rw [hr]
      exact ⟨_, rfl, trivial⟩)
  exact ⟨d, hd⟩

/-! ## The result -/

/-- Only the global depths are written. -/
theorem calculateGlobalCallDepth_eq_ok {w : Walk} {cg cg' : CG} {b : Bool} (h : calculateGlobalCallDepth w cg b = .ok cg') :
    ∃ depths, cg' = cg.mapValues (globalLoopDepth depths) := by
  obtain ⟨d, -, h⟩ := bind_eq_ok.mp h
  obtain ⟨depths, -, h⟩ := bind_eq_ok.mp h
  cases h
  exact ⟨depths, rfl⟩

end MetaCG.FormatTwo
