import MetaCG.Fortran.ParseTree

/-! When a callback does not fail.

A callback that looks for the base of a type needs types that do not extend themselves, and one that looks at the current
procedure needs one. The front end has to have found the symbols that a callback takes for granted. -/
namespace MetaCG.Fortran
open Foundations
set_option autoImplicit false
set_option maxHeartbeats 250000
set_option maxRecDepth 120000

section
variable {σ : Type} [DecidableEq σ] [Fintype σ] (tbl : SymbolTable σ)

def IsEdge (e : Edge) : Prop := ∃ a b, e = edgeOf tbl a b

/-- What the collector keeps for later. -/
structure Kept (st : State σ) : Prop where
  operators : ∀ e ∈ st.exprStmtWithOps, e.isResolved = true
  edges : ∀ e ∈ st.edges, IsEdge tbl e
  finalizerEdges : ∀ pf ∈ st.potentialFinalizers, ∀ e ∈ pf.finalizerEdges, IsEdge tbl e

/-- No type extends itself through others. -/
def Acyclic (types : List (TypeEntry σ)) : Prop :=
  ∃ rank : σ → ℕ, ∀ t ∈ types, ∀ a p, t.typeSymbol = some a → t.extendsFrom = some p → rank p < rank a

def HasBases (types : List (TypeEntry σ)) : Prop := ∀ t ∈ types, ∃ k, getAbsoluteBaseSymbol tbl types t = .ok k

end

section
variable {σ : Type} [DecidableEq σ] [Fintype σ] {tbl : SymbolTable σ} {opts : Settings} {st st' : State σ} {d : Declared σ}
  {types : List (TypeEntry σ)}

omit [DecidableEq σ] [Fintype σ] in
theorem Acyclic.of_prefix {types' : List (TypeEntry σ)} (h : Acyclic types') (hpre : types <+: types') : Acyclic types := by
  obtain ⟨rank, hrank⟩ := h
  exact ⟨rank, fun t ht => hrank t (hpre.subset ht)⟩

theorem Acyclic.hasBases (h : Acyclic types) : HasBases tbl types := by
  obtain ⟨rank, hrank⟩ := h
  intro t _
  have hbase : ∃ b, getAbsoluteBase types t = .ok b := by
    unfold getAbsoluteBase
    cases t.extendsFrom with
    | none => exact ⟨_, rfl⟩
    | some p =>
      obtain ⟨r, hr⟩ := Forest.exists_isRoot rank (fun a p hup => by
        obtain ⟨u, hu, ha, hp⟩ := extendsOf_eq_some hup
        exact hrank u hu a p ha hp) p
      dsimp only
      rw [climb_extendsOf.mpr hr]
      exact ⟨_, rfl⟩
  obtain ⟨b, hb⟩ := hbase
  rw [getAbsoluteBaseSymbol, hb]
  exact ⟨_, rfl⟩

omit [DecidableEq σ] [Fintype σ] in
theorem isEdge_edgeOf (a b : σ) : IsEdge tbl (edgeOf tbl a b) := ⟨a, b, rfl⟩

omit [DecidableEq σ] [Fintype σ] in
theorem isEdge_of_mem_map {a : σ} {l : List σ} {e : Edge} (h : e ∈ l.map (edgeOf tbl a)) : IsEdge tbl e := by
  obtain ⟨b, -, rfl⟩ := List.mem_map.mp h
  exact isEdge_edgeOf a b

omit [DecidableEq σ] [Fintype σ] in
theorem Kept.addEdges (h : Kept tbl st) {l : List Edge} (hl : ∀ e ∈ l, IsEdge tbl e) :
    Kept tbl { st with edges := st.edges ++ l } :=
  ⟨h.operators, fun e he => (List.mem_append.mp he).elim (h.edges e) (hl e), h.finalizerEdges⟩

omit [DecidableEq σ] [Fintype σ] in
/-- A callback that keeps what is kept. -/
theorem Kept.of_changesTypes (h : Kept tbl st) (hch : ChangesTypes st st') : Kept tbl st' :=
  ⟨hch.exprStmtWithOps ▸ h.operators, hch.edges ▸ h.edges, hch.potentialFinalizers ▸ h.finalizerEdges⟩

theorem addEdgesForFinalizers_total (hb : HasBases tbl types) (finalizers : UMap (Option σ) (List σ)) (c s : σ) :
    ∃ l, addEdgesForFinalizers tbl types finalizers c s = .ok l ∧ ∀ e ∈ l, IsEdge tbl e := by
  have hfinals : ∃ l, finalizersOf tbl types finalizers s = .ok l := by
    unfold finalizersOf
    split
    · exact ⟨[], rfl⟩
    · next t ht =>
      obtain ⟨k, hk⟩ := hb t (List.mem_of_find?_eq_some ht)
      rw [hk, ok_bind]
      exact ⟨_, rfl⟩
  obtain ⟨l, hl⟩ := hfinals
  exact ⟨l.map (edgeOf tbl c), by rw [addEdgesForFinalizers, hl]; rfl, fun e => isEdge_of_mem_map⟩

/-! ## Calls and variables -/

theorem postProcedureDesignator_total (h : Kept tbl st) (hb : HasBases tbl st.types) (p : ProcedureDesignator σ) :
    ∃ st', postProcedureDesignator tbl opts st p = .ok st' ∧ Kept tbl st' := by
  unfold postProcedureDesignator
  split
  · exact ⟨st, rfl, h⟩
  · next current rest _ =>
    have hone : ∀ s, Kept tbl { st with edges := st.edges ++ [edgeOf tbl current.symbol s] } := fun s =>
      h.addEdges fun e he => List.mem_singleton.mp he ▸ isEdge_edgeOf _ s
    split
    · exact ⟨st, rfl, h⟩
    · split_ifs
      · exact ⟨st, rfl, h⟩
      · exact ⟨_, rfl, hone _⟩
    · exact ⟨st, rfl, h⟩
    · next comp base =>
      dsimp only
      split
      · exact ⟨_, rfl, hone comp⟩
      · next t ht =>
        obtain ⟨v, -, hv⟩ := Option.bind_eq_some_iff.mp ht
        obtain ⟨k, hk⟩ := hb t (List.mem_of_find?_eq_some hv)
        rw [hk, ok_bind]
        exact ⟨_, rfl, (hone comp).addEdges fun e => isEdge_of_mem_map⟩

theorem assigned_kept (h : Kept tbl st) (current : σ) (name : Option σ) : Kept tbl (assigned tbl current st name) := by
  cases name with
  | none => exact h
  | some s => exact ⟨h.operators, h.edges, h.finalizerEdges⟩

theorem postAssignment_kept (h : Kept tbl st) (names : List (Option σ)) : Kept tbl (postAssignment tbl st names) := by
  unfold postAssignment
  split
  · exact h
  · next current rest _ =>
    clear * - h
    induction names generalizing st with
    | nil => exact h
    | cons name names ih => exact ih (assigned_kept h current.symbol name)

theorem handleActualArg_total (h : Kept tbl st) (hb : HasBases tbl st.types) (procSymbol current : σ) (arg : Option σ) :
    ∃ st', handleActualArg tbl procSymbol current st arg = .ok st' ∧ Kept tbl st' := by
  unfold handleActualArg
  split
  · exact ⟨st, rfl, h⟩
  · next s =>
    split_ifs
    · exact ⟨_, rfl, assigned_kept h current _⟩
    · split
      · exact ⟨st, rfl, h⟩
      · obtain ⟨l, hl, hedges⟩ := addEdgesForFinalizers_total hb st.finalizers current s
        rw [hl, ok_bind]
        refine ⟨_, rfl, h.operators, h.edges, fun pf hpf => ?_⟩
        rcases List.mem_append.mp hpf with hpf | hpf
        · exact h.finalizerEdges pf hpf
        · rw [List.mem_singleton.mp hpf]
          exact hedges

/-- A loop of a callback that changes no types. -/
theorem variables_total {α : Type} {f : State σ → α → Except Exn (State σ)} {l : List α} (h : Kept tbl st)
    (hb : HasBases tbl st.types) (htotal : ∀ s a, Kept tbl s → HasBases tbl s.types → ∃ s', f s a = .ok s' ∧ Kept tbl s')
    (hch : ∀ s a s', f s a = .ok s' → ChangesVariables s s') : ∃ st', l.foldlM f st = .ok st' ∧ Kept tbl st' := by
  obtain ⟨st', hrun, hkept, -⟩ := foldlM_total (J := fun _ s => Kept tbl s ∧ HasBases tbl s.types) (l := l) ⟨h, hb⟩
    (fun _ a s _ hs => by
      obtain ⟨s', hs', hkept⟩ := htotal s a hs.1 hs.2
      have htypes : s'.types = s.types := congrArg Classes.types (hch s a s' hs').classes
      exact ⟨s', hs', hkept, htypes ▸ hs.2⟩)
  exact ⟨st', hrun, hkept⟩

theorem postCall_total (h : Kept tbl st) (hb : HasBases tbl st.types) (procName : Option σ) (args : List (Option σ)) :
    ∃ st', postCall tbl st procName args = .ok st' ∧ Kept tbl st' := by
  unfold postCall
  split
  · exact variables_total h hb (fun s a hs hbs => handleActualArg_total hs hbs _ _ a) fun _ _ _ => handleActualArg_changes
  · exact ⟨st, rfl, h⟩

theorem declareEntity_total (h : Kept tbl st) (hb : HasBases tbl st.types) (attrs : List AttrSpec) (current : Procedure σ)
    (name : Option σ) : ∃ st', declareEntity tbl attrs current st name = .ok st' ∧ Kept tbl st' := by
  have htrack : ∀ var, Kept tbl { st with trackedVars := addTrackedVar tbl st.trackedVars var } := fun _ =>
    ⟨h.operators, h.edges, h.finalizerEdges⟩
  have hfinalize : ∀ s, ∃ st', (do return { st with edges := st.edges ++
      (← addEdgesForFinalizers tbl st.types st.finalizers current.symbol s) } : Except Exn (State σ)) = .ok st' ∧ Kept tbl st' := by
    intro s
    obtain ⟨l, hl, hedges⟩ := addEdgesForFinalizers_total hb st.finalizers current.symbol s
    rw [hl]
    exact ⟨_, rfl, h.addEdges hedges⟩
  unfold declareEntity
  split
  · exact ⟨st, rfl, h⟩
  · next s =>
    dsimp only
    split_ifs
    · exact ⟨st, rfl, h⟩
    · exact ⟨st, rfl, h⟩
    · split
      · exact ⟨_, rfl, htrack _⟩
      · exact hfinalize s
      · exact ⟨_, rfl, htrack _⟩
      · exact ⟨st, rfl, h⟩
    · exact ⟨_, rfl, htrack _⟩
    · exact hfinalize s

theorem postTypeDeclarationStmt_total (h : Kept tbl st) (hb : HasBases tbl st.types) (attrs : List AttrSpec)
    (entities : List (Option σ)) : ∃ st', postTypeDeclarationStmt tbl st attrs entities = .ok st' ∧ Kept tbl st' := by
  unfold postTypeDeclarationStmt
  split
  · exact ⟨st, rfl, h⟩
  · exact variables_total h hb (fun s a hs hbs => declareEntity_total hs hbs attrs _ a) fun _ _ _ => declareEntity_changes

/-! ## Expressions -/

omit [DecidableEq σ] [Fintype σ] in
theorem isInterfaceOperator_total {e : ExprOperator σ} (he : e.isResolved = true) (op : (σ ⊕ IntrinsicOperator) × List σ) :
    ∃ b, isInterfaceOperator tbl e op = .ok b := by
  unfold isInterfaceOperator
  split
  · exact ⟨_, rfl⟩
  · next name _ =>
    obtain ⟨s, hs⟩ := Option.isSome_iff_exists.mp he
    rw [hs]
    exact ⟨_, rfl⟩
  · next name _ =>
    obtain ⟨s, hs⟩ := Option.isSome_iff_exists.mp he
    rw [hs]
    exact ⟨_, rfl⟩
  · exact ⟨_, rfl⟩

theorem overloads_total (hb : HasBases tbl st.types) {e : ExprOperator σ} (he : e.isResolved = true) (current s : σ) :
    ∃ l, overloads tbl st current s e = .ok l ∧ ∀ e ∈ l, IsEdge tbl e := by
  obtain ⟨r, hr, -⟩ := findM_ok (P := fun _ => True) (l := st.interfaceOperators) (f := isInterfaceOperator tbl e) fun op _ => by
    obtain ⟨b, hb⟩ := isInterfaceOperator_total he op
    exact ⟨b, hb, fun _ => trivial⟩
  unfold overloads
  rw [hr, ok_bind]
  dsimp only
  split
  · exact ⟨_, rfl, fun e => isEdge_of_mem_map⟩
  · next t ht =>
    obtain ⟨k, hk⟩ := hb t (List.mem_of_find?_eq_some ht)
    rw [hk, ok_bind]
    exact ⟨_, rfl, fun e => isEdge_of_mem_map⟩

theorem mapM_total {α β : Type} {f : α → Except Exn β} {P : β → Prop} {l : List α} (h : ∀ a ∈ l, ∃ b, f a = .ok b ∧ P b) :
    ∃ r, l.mapM f = .ok r ∧ ∀ b ∈ r, P b := by
  induction l with
  | nil => exact ⟨[], rfl, fun b hb => absurd hb List.not_mem_nil⟩
  | cons a l ih =>
    obtain ⟨b, hb, hP⟩ := h a (List.mem_cons_self ..)
    obtain ⟨r, hr, hrest⟩ := ih fun x hx => h x (List.mem_cons_of_mem a hx)
    refine ⟨b :: r, ?_, List.forall_mem_cons.mpr ⟨hP, hrest⟩⟩
    rw [List.mapM_cons, hb, ok_bind, hr]
    rfl

theorem preExpr_total (h : Kept tbl st) (hb : HasBases tbl st.types) {e : Expr σ}
    (he : (Callback.preExpr e).isResolved = true) : ∃ st', preExpr tbl st e = .ok st' ∧ Kept tbl st' := by
  unfold preExpr
  split
  · next op =>
    refine ⟨_, rfl, fun e he' => ?_, h.edges, h.finalizerEdges⟩
    rcases List.mem_append.mp he' with he' | he'
    · exact h.operators e he'
    · rw [List.mem_singleton.mp he']
      exact he
  · next s =>
    split
    · exact ⟨st, rfl, h⟩
    · next current rest _ =>
      obtain ⟨ls, hls, hedges⟩ := mapM_total fun e he => overloads_total hb (h.operators e he) current.symbol s
      rw [hls, ok_bind]
      refine ⟨_, rfl, h.addEdges fun e he => ?_⟩
      obtain ⟨l, hl, he⟩ := List.mem_flatten.mp he
      exact hedges l hl e he
  · exact ⟨st, rfl, h⟩

/-! ## Types -/

section
variable {t : TypeEntry σ}

theorem addOverwrite_total (hb : HasBases tbl st.types) (ht : t ∈ st.types) (n : String) (v : σ) :
    ∃ st', addOverwrite tbl t st n v = .ok st' ∧ st'.types = st.types := by
  obtain ⟨k, hk⟩ := hb t ht
  rw [addOverwrite, hk]
  exact ⟨_, rfl, rfl⟩

theorem addFinalizer_total (hb : HasBases tbl st.types) (ht : t ∈ st.types) (v : σ) :
    ∃ st', addFinalizer tbl t st v = .ok st' ∧ st'.types = st.types := by
  obtain ⟨k, hk⟩ := hb t ht
  rw [addFinalizer, hk]
  exact ⟨_, rfl, rfl⟩

theorem addTypeOperator_total (hb : HasBases tbl st.types) (ht : t ∈ st.types) (op n : String) :
    ∃ st', addTypeOperator tbl t op st n = .ok st' ∧ st'.types = st.types := by
  obtain ⟨k, hk⟩ := hb t ht
  rw [addTypeOperator, hk]
  exact ⟨_, rfl, rfl⟩

/-- A loop that files what a type declares. -/
theorem types_total {α : Type} {f : State σ → α → Except Exn (State σ)} {l : List α} (hb : HasBases tbl st.types)
    (ht : t ∈ st.types)
    (htotal : ∀ s, ∀ a ∈ l, HasBases tbl s.types → t ∈ s.types → ∃ s', f s a = .ok s' ∧ s'.types = s.types) :
    ∃ st', l.foldlM f st = .ok st' ∧ st'.types = st.types := by
  refine foldlM_total (J := fun _ (s : State σ) => s.types = st.types) rfl fun pre a s hpre hs => ?_
  obtain ⟨s', hs', htypes⟩ := htotal s a (hpre.subset (List.mem_append_right _ (List.mem_singleton_self a))) (hs ▸ hb) (hs ▸ ht)
  exact ⟨s', hs', htypes.trans hs⟩

theorem useComponent_total (hb : HasBases tbl st.types) (ht : t ∈ st.types) (component : σ) :
    ∃ st', useComponent tbl t st component = .ok st' ∧ st'.types = st.types := by
  unfold useComponent
  split
  · exact addOverwrite_total hb ht _ _
  · exact types_total hb ht fun s a _ hbs hts => addTypeOperator_total hbs hts _ a
  · exact ⟨st, rfl, rfl⟩

end

theorem useSymbol_total (htbl : tbl.Complete) (htypes : st.types = d.types) {s : σ} (hac : Acyclic (d.useSymbol tbl s).types) :
    ∃ st', useSymbol tbl st s = .ok st' ∧ st'.types = (d.useSymbol tbl s).types := by
  unfold Declared.useSymbol at hac ⊢
  unfold useSymbol
  cases hdetails : tbl.details s with
  | derivedType finals parentComponent =>
    rw [hdetails] at hac
    dsimp only at hac ⊢
    rw [useComponents_types] at hac ⊢
    obtain ⟨components, hscope⟩ := Option.isSome_iff_exists.mp (htbl.scopes s finals parentComponent hdetails)
    let t : TypeEntry σ := ⟨some s, parentOf tbl parentComponent⟩
    have hb : HasBases tbl (st.types ++ [t]) := htypes ▸ hac.hasBases
    have ht : t ∈ st.types ++ [t] := List.mem_append_right _ (List.mem_singleton_self t)
    rw [useDerivedType, hscope]
    dsimp only
    obtain ⟨st₁, hst₁, htypes₁⟩ := @types_total σ _ _ tbl { st with types := st.types ++ [t] } t σ (addFinalizer tbl t) finals
      hb ht fun s a _ hbs hts => addFinalizer_total hbs hts a
    obtain ⟨st₂, hst₂, htypes₂⟩ := @types_total σ _ _ tbl st₁ t σ (useComponent tbl t) components (htypes₁ ▸ hb) (htypes₁ ▸ ht)
      fun s a _ hbs hts => useComponent_total hbs hts a
    refine ⟨st₂, by rw [hst₁, ok_bind, hst₂], (htypes₂.trans htypes₁).trans ?_⟩
    exact congrArg (· ++ [t]) htypes
  | generic kind specificProcs =>
    dsimp only
    split_ifs <;> exact ⟨_, rfl, htypes⟩
  | subprogram result isInterface dummyArgs =>
    dsimp only
    split_ifs <;> exact ⟨_, rfl, htypes⟩
  | _ => exact ⟨_, rfl, htypes⟩

theorem useSymbols_total (htbl : tbl.Complete) {l : List σ} (htypes : st.types = d.types)
    (hac : Acyclic (l.foldl (Declared.useSymbol tbl) d).types) :
    ∃ st', l.foldlM (useSymbol tbl) st = .ok st' ∧ st'.types = (l.foldl (Declared.useSymbol tbl) d).types := by
  induction l generalizing d st with
  | nil => exact ⟨st, rfl, htypes⟩
  | cons s l ih =>
    obtain ⟨st₁, hst₁, htypes₁⟩ := useSymbol_total htbl htypes (hac.of_prefix (useSymbols_types _ l))
    obtain ⟨st₂, hst₂, htypes₂⟩ := ih htypes₁ hac
    exact ⟨st₂, by rw [List.foldlM_cons, hst₁, ok_bind, hst₂], htypes₂⟩

omit [DecidableEq σ] [Fintype σ] in
theorem currentType_total (hne : st.types ≠ []) : ∃ t ∈ st.types, currentType st = .ok t := by
  unfold currentType
  cases hlast : st.types.getLast? with
  | none => exact absurd (List.getLast?_eq_none_iff.mp hlast) hne
  | some t => exact ⟨t, List.mem_of_getLast? hlast, rfl⟩

theorem postTypeBoundProcedureStmt_total (hb : HasBases tbl st.types) (hne : st.types ≠ []) {s : TypeBoundProcedureStmt σ}
    (hs : (Callback.postTypeBoundProcedureStmt s).isResolved = true) :
    ∃ st', postTypeBoundProcedureStmt tbl st s = .ok st' ∧ st'.types = st.types := by
  obtain ⟨t, ht, hcur⟩ := currentType_total hne
  unfold postTypeBoundProcedureStmt
  split_ifs
  · exact ⟨st, rfl, rfl⟩
  · cases s with
    | withoutInterface declarations =>
      dsimp only
      rw [hcur, ok_bind]
      exact types_total (f := addDeclaration tbl t) (l := declarations) hb ht fun s x hx hbs hts => by
        have hres := List.all_eq_true.mp hs x hx
        unfold addDeclaration
        split
        · exact ⟨s, rfl, rfl⟩
        · next name hname =>
          rw [hname] at hres
          split
          · next hnone =>
            rw [Option.getD_eq_iff] at hnone
            rcases hnone with hnone | ⟨-, hnone⟩
            · rw [hnone] at hres
              cases hres
            · cases hnone
          · exact addOverwrite_total hbs hts _ _
    | withInterface bindingNames =>
      dsimp only
      rw [hcur, ok_bind]
      exact types_total (f := addBindingName tbl t) (l := bindingNames) hb ht fun s x _ hbs hts => by
        unfold addBindingName
        split
        · exact ⟨s, rfl, rfl⟩
        · split
          · exact addOverwrite_total hbs hts _ _
          · exact ⟨s, rfl, rfl⟩

theorem postTypeBoundGenericStmt_total (hb : HasBases tbl st.types) (hne : st.types ≠ []) {spec : Option (DefinedOperator σ)}
    {names : List (Option σ)} (hs : (Callback.postTypeBoundGenericStmt spec names).isResolved = true) :
    ∃ st', postTypeBoundGenericStmt tbl st spec names = .ok st' ∧ st'.types = st.types := by
  obtain ⟨t, ht, hcur⟩ := currentType_total hne
  unfold postTypeBoundGenericStmt
  split_ifs
  · exact ⟨st, rfl, rfl⟩
  · rw [hcur, ok_bind]
    cases spec with
    | none => exact ⟨st, rfl, rfl⟩
    | some op =>
      dsimp only
      exact types_total (f := addOperatorName tbl t op) (l := names) hb ht fun s x hx hbs hts => by
        obtain ⟨sym, rfl⟩ := Option.isSome_iff_exists.mp (List.all_eq_true.mp hs x hx)
        exact addTypeOperator_total hbs hts _ _

/-! ## Procedures -/

variable {p : Procedure σ} {l : List (Procedure σ)}

theorem handleTrackedVars_total (h : Kept tbl st) (hb : HasBases tbl st.types) (current : σ) :
    ∃ st', handleTrackedVars tbl st current = .ok st' ∧ Kept tbl st' ∧ st'.currentProcedures = st.currentProcedures := by
  unfold handleTrackedVars
  split_ifs
  · exact ⟨st, rfl, h, rfl⟩
  · obtain ⟨acc, hacc, hedges⟩ := foldlM_total (f := handleTrackedVar tbl st.types st.finalizers current) (l := st.trackedVars)
      (s := (st.edges, st.procedures)) (J := fun _ acc => ∀ e ∈ acc.1, IsEdge tbl e) h.edges fun _ var acc _ hacc => by
        unfold handleTrackedVar
        split_ifs
        · exact ⟨acc, rfl, hacc⟩
        · exact ⟨acc, rfl, hacc⟩
        · obtain ⟨added, hadded, hnew⟩ := addEdgesForFinalizers_total hb st.finalizers current var.var
          rw [hadded]
          exact ⟨_, rfl, fun e he => (List.mem_append.mp he).elim (hacc e) (hnew e)⟩
        · exact ⟨_, rfl, fun e he => (List.mem_append.mp he).elim (hacc e) fun he => absurd he List.not_mem_nil⟩
    rw [hacc]
    exact ⟨_, rfl, ⟨h.operators, hedges, h.finalizerEdges⟩, rfl⟩

theorem handleEndFuncSubStmt_total (h : Kept tbl st) (hb : HasBases tbl st.types) (hcur : st.currentProcedures = p :: l) :
    ∃ st', handleEndFuncSubStmt tbl st = .ok st' ∧ Kept tbl st' ∧ st'.currentProcedures = l := by
  obtain ⟨st₁, hst₁, hkept, hprocs⟩ := handleTrackedVars_total h hb p.symbol
  refine ⟨{ st₁ with currentProcedures := st₁.currentProcedures.tail }, ?_,
    ⟨hkept.operators, hkept.edges, hkept.finalizerEdges⟩, ?_⟩
  · rw [handleEndFuncSubStmt, currentProcedure, hcur]
    dsimp only
    rw [ok_bind, hst₁]
    rfl
  · rw [hprocs, hcur]
    rfl

omit [DecidableEq σ] [Fintype σ] in
theorem setBody_total (h : Kept tbl st) (hwf : st.cg.Wf) (hcur : st.currentProcedures = p :: l) :
    ∃ st', setBody tbl st = .ok st' ∧ Kept tbl st' ∧ st'.currentProcedures = p :: l := by
  rw [setBody, currentProcedure, hcur]
  dsimp only
  rw [ok_bind, Callgraph.getFirstNode_eq hwf, ok_bind]
  cases (st.cg.firstNamed (tbl.mangleSymbol p.symbol)).bind st.cg.slot with
  | none => exact ⟨st, rfl, h, hcur⟩
  | some n => exact ⟨_, rfl, ⟨h.operators, h.edges, h.finalizerEdges⟩, rfl⟩

omit [DecidableEq σ] [Fintype σ] in
theorem handleFuncSubStmt_total (h : Kept tbl st) (hwf : st.cg.Wf) {s : σ} (hs : tbl.mangleSymbol s ≠ "") :
    ∃ st', handleFuncSubStmt tbl opts st s = .ok st' ∧ Kept tbl st' ∧ st'.currentProcedures = ⟨s, []⟩ :: st.currentProcedures := by
  obtain ⟨g, i, hg, -⟩ := hwf.getOrInsertNode_extends hs (some opts.currentFileName) false false
  rw [handleFuncSubStmt, hg]
  exact ⟨_, rfl, ⟨h.operators, h.edges, h.finalizerEdges⟩, rfl⟩

theorem handleDummyArgs_total (h : Kept tbl st) (hcur : st.currentProcedures = p :: l) (items : List (Option σ)) :
    ∃ st', handleDummyArgs tbl st items = .ok st' ∧ Kept tbl st' ∧ ∃ p', st'.currentProcedures = p' :: l := by
  rw [handleDummyArgs, currentProcedure, hcur]
  dsimp only
  rw [ok_bind]
  split
  · exact ⟨st, rfl, h, p, hcur⟩
  · next i _ =>
    refine ⟨_, rfl, ?_⟩
    clear * - h hcur
    induction items generalizing st p with
    | nil => exact ⟨h, p, hcur⟩
    | cons item items ih =>
      cases item with
      | none => exact ih h hcur
      | some s =>
        refine ih (p := { p with dummyArgs := p.dummyArgs ++ [⟨some s, false⟩] }) ⟨h.operators, h.edges, h.finalizerEdges⟩ ?_
        change st.currentProcedures.modify 0 _ = _
        rw [hcur]
        rfl

theorem postFunctionStmt_total (h : Kept tbl st) (hwf : st.cg.Wf) (htbl : tbl.Complete) (s : σ) (args : List (Option σ)) :
    ∃ st', postFunctionStmt tbl opts st (some s) args = .ok st' ∧ Kept tbl st' ∧
      ∃ p, st'.currentProcedures = p :: st.currentProcedures := by
  obtain ⟨st₁, hst₁, hkept, hcur⟩ := @handleFuncSubStmt_total σ tbl opts st h hwf s (htbl.mangled s)
  obtain ⟨st₂, hst₂, hkept, hcur⟩ := handleDummyArgs_total hkept hcur args
  refine ⟨st₂, ?_, hkept, hcur⟩
  rw [postFunctionStmt, named, ok_bind, hst₁, ok_bind, hst₂]

end
end MetaCG.Fortran
