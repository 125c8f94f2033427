import MetaCG.Fortran.ClassTable

/-! The collector files what a file declares.

The walk is cut into chunks, so that the statement of a derived type is one step. If the types of the file come in order, the
tables describe the declarations after every chunk. -/
namespace MetaCG.Fortran
open Foundations
set_option autoImplicit false
set_option maxHeartbeats 250000
set_option maxRecDepth 120000

variable {σ : Type} [DecidableEq σ] [Fintype σ] {tbl : SymbolTable σ} {opts : Settings} {st st' : State σ} {d : Declared σ}

theorem typeAttrs_walk (typeSymbol : σ) (l : List (TypeEntry σ)) (attrs : List (Option σ)) (parent : Option σ) :
    walk tbl opts { st with inDerivedTypeDef := true, types := l ++ [⟨some typeSymbol, parent⟩] }
        (attrs.map fun a => .postTypeAttrSpec (a.map some)) =
      .ok { st with inDerivedTypeDef := true, types := l ++ [⟨some typeSymbol, attrs.reduceOption.getLast?.or parent⟩] } := by
  induction attrs generalizing parent with
  | nil => rfl
  | cons a attrs ih =>
    rw [List.map_cons, walk, List.foldlM_cons]
    cases a with
    | none =>
      have hround : visit tbl opts { st with inDerivedTypeDef := true, types := l ++ [⟨some typeSymbol, parent⟩] }
          (.postTypeAttrSpec none) = .ok { st with inDerivedTypeDef := true, types := l ++ [⟨some typeSymbol, parent⟩] } := by
        simp [visit, postTypeAttrSpec, currentType]
      rw [Option.map_none, hround, ok_bind, List.reduceOption_cons_of_none]
      exact ih parent
    | some p =>
      have hround : visit tbl opts { st with inDerivedTypeDef := true, types := l ++ [⟨some typeSymbol, parent⟩] }
          (.postTypeAttrSpec (some (some p))) =
            .ok { st with inDerivedTypeDef := true, types := l ++ [⟨some typeSymbol, some p⟩] } := by
        simp [visit, postTypeAttrSpec, currentType, setCurrentType]
      rw [Option.map_some, hround, ok_bind, List.reduceOption_cons_of_some]
      refine (ih (some p)).trans ?_
      rw [List.getLast?_cons]
      cases attrs.reduceOption.getLast? <;> rfl

theorem typeStart_walk (typeSymbol : σ) (attrs : List (Option σ)) :
    walk tbl opts st (Chunk.typeStart typeSymbol attrs).callbacks =
      .ok { st with inDerivedTypeDef := true, types := st.types ++ [⟨some typeSymbol, attrs.reduceOption.getLast?⟩] } := by
  have hstmt : visit tbl opts { st with inDerivedTypeDef := true, types := st.types ++ [⟨none, none⟩] }
      (.preDerivedTypeStmt (some typeSymbol)) =
        .ok { st with inDerivedTypeDef := true, types := st.types ++ [⟨some typeSymbol, none⟩] } := by
    simp [visit, preDerivedTypeStmt, currentType, setCurrentType]
  have hattrs := @typeAttrs_walk σ _ _ tbl opts st typeSymbol st.types attrs none
  rw [Option.or_none] at hattrs
  rw [Chunk.callbacks, walk, List.foldlM_append]
  change ((visit tbl opts { st with inDerivedTypeDef := true, types := st.types ++ [⟨none, none⟩] }
      (.preDerivedTypeStmt (some typeSymbol)) >>= pure) >>= _) = _
  rw [hstmt]
  exact hattrs

theorem Describes.current (h : Describes tbl d st.classes) {t : TypeEntry σ} (ht : currentType st = .ok t) :
    t ∈ d.types ∧ d.lastType = some t := by
  have htypes : st.types = d.types := h.types
  unfold currentType at ht
  rw [htypes] at ht
  split at ht
  · next hlast =>
    cases ht
    exact ⟨List.mem_of_getLast? hlast, hlast⟩
  · cases ht

/-! ## Types only come in -/

omit [DecidableEq σ] [Fintype σ] in
theorem useComponent_types (t : TypeEntry σ) (d : Declared σ) (component : σ) :
    (d.useComponent tbl t component).types = d.types := by
  unfold Declared.useComponent
  split <;> rfl

omit [DecidableEq σ] [Fintype σ] in
theorem useComponents_types (t : TypeEntry σ) (d : Declared σ) (l : List σ) :
    (l.foldl (Declared.useComponent tbl t) d).types = d.types := by
  induction l generalizing d with
  | nil => rfl
  | cons x l ih => exact (ih _).trans (useComponent_types t d x)

omit [DecidableEq σ] [Fintype σ] in
theorem useSymbol_types (d : Declared σ) (symbol : σ) : d.types <+: (d.useSymbol tbl symbol).types := by
  unfold Declared.useSymbol
  split
  · rw [useComponents_types]
    exact List.prefix_append ..
  · exact List.prefix_rfl

omit [DecidableEq σ] [Fintype σ] in
theorem useSymbols_types (d : Declared σ) (l : List σ) : d.types <+: (l.foldl (Declared.useSymbol tbl) d).types := by
  induction l generalizing d with
  | nil => exact List.prefix_rfl
  | cons x l ih => exact (useSymbol_types d x).trans (ih _)

theorem declare_types (d : Declared σ) (ch : Chunk σ) : d.types <+: (d.declare tbl ch).types := by
  unfold Declared.declare
  split
  · exact List.prefix_append ..
  · split <;> exact List.prefix_rfl
  · split <;> exact List.prefix_rfl
  · split <;> exact List.prefix_rfl
  · exact useSymbols_types d _
  · exact List.prefix_rfl

omit [DecidableEq σ] [Fintype σ] in
theorem Ordered.of_prefix {types types' : List (TypeEntry σ)} (h : Ordered types') (hpre : types <+: types') : Ordered types := by
  obtain ⟨more, rfl⟩ := hpre
  exact h.prefix

/-! ## Modules -/

theorem Describes.useComponent {t : TypeEntry σ} {component : σ} (h : Describes tbl d st.classes) (hord : Ordered d.types)
    (ht : t ∈ d.types) (hrun : Fortran.useComponent tbl t st component = .ok st') :
    Describes tbl (d.useComponent tbl t component) st'.classes := by
  unfold Fortran.useComponent at hrun
  unfold Declared.useComponent
  cases hdetails : tbl.details component with
  | procBinding procedure =>
    rw [hdetails] at hrun
    obtain ⟨st₁, hadd, hdesc⟩ := h.addOverwrite hord ht (tbl.name component) procedure
    exact Except.ok.inj (hrun.symm.trans hadd) ▸ hdesc
  | generic kind specificProcs =>
    rw [hdetails] at hrun
    have hall := h.operateAll (fun s x s' hx => ⟨x, (rfl : some x = some x), hx⟩) hord ht hrun
    rw [List.filterMap_some, List.map_map] at hall
    exact hall
  | _ =>
    rw [hdetails] at hrun
    cases hrun
    exact h

theorem Describes.useDerivedType {symbol : σ} {finals : List σ} {parentComponent : Option σ} {t : TypeEntry σ}
    (h : Describes tbl d st.classes) (ht : t = ⟨some symbol, parentOf tbl parentComponent⟩) (hord : Ordered (d.types ++ [t]))
    (hrun : Fortran.useDerivedType tbl st symbol finals parentComponent = .ok st') :
    Describes tbl (((tbl.scope symbol).getD []).foldl (Declared.useComponent tbl t)
      (Declared.finalize { d with types := d.types ++ [t] } t finals)) st'.classes := by
  subst ht
  unfold Fortran.useDerivedType at hrun
  split at hrun
  · cases hrun
  · next components hscope =>
    rw [hscope, Option.getD_some]
    obtain ⟨st₁, hfinals, hrun⟩ := bind_eq_ok.mp hrun
    let t : TypeEntry σ := ⟨some symbol, parentOf tbl parentComponent⟩
    have hmem : t ∈ d.types ++ [t] := List.mem_append_right _ (List.mem_singleton_self _)
    have hnew : Describes tbl { d with types := d.types ++ [t] } { st with types := st.types ++ [t] }.classes :=
      h.newType hord h.inDerivedTypeDef rfl ⟨rfl, rfl, rfl⟩
    have hfinalized := hnew.finalizeAll hord hmem hfinals
    exact (hfinalized.loop (useComponent_types t)
      (fun d' s x s' hd' hs hx => hs.useComponent (hd' ▸ hord) (hd' ▸ hmem) hx) hrun).1

theorem Describes.useSymbol {symbol : σ} (h : Describes tbl d st.classes) (hord : Ordered (d.useSymbol tbl symbol).types)
    (hrun : Fortran.useSymbol tbl st symbol = .ok st') : Describes tbl (d.useSymbol tbl symbol) st'.classes := by
  unfold Fortran.useSymbol at hrun
  unfold Declared.useSymbol at hord ⊢
  cases hdetails : tbl.details symbol with
  | derivedType finals parentComponent =>
    rw [hdetails] at hrun hord
    dsimp only at hord
    rw [useComponents_types] at hord
    exact h.useDerivedType rfl hord hrun
  | generic kind specificProcs =>
    rw [hdetails] at hrun
    dsimp only at hrun
    split_ifs at hrun <;> cases hrun <;> exact h
  | subprogram result isInterface dummyArgs =>
    rw [hdetails] at hrun
    dsimp only at hrun
    split_ifs at hrun <;> cases hrun <;> exact h
  | _ =>
    rw [hdetails] at hrun
    cases hrun
    exact h

theorem Describes.useSymbols {l : List σ} (h : Describes tbl d st.classes)
    (hord : Ordered (l.foldl (Declared.useSymbol tbl) d).types) (hrun : l.foldlM (Fortran.useSymbol tbl) st = .ok st') :
    Describes tbl (l.foldl (Declared.useSymbol tbl) d) st'.classes := by
  induction l generalizing d st with
  | nil =>
    cases hrun
    exact h
  | cons x l ih =>
    rw [List.foldlM_cons] at hrun
    obtain ⟨st₁, hround, hrun⟩ := bind_eq_ok.mp hrun
    exact ih (h.useSymbol (hord.of_prefix (useSymbols_types _ l)) hround) hord hrun

/-! ## The walk -/

/-- A callback that is about no derived type declares nothing. -/
theorem declare_other (d : Declared σ) {c : Callback σ} (h : c.startsType = false) (hc : c.aboutTypes = false) :
    d.declare tbl (.one c h) = d := by
  cases c <;> first | rfl | cases hc

theorem Describes.boundProcedures {s : TypeBoundProcedureStmt σ} (h : Describes tbl d st.classes) (hord : Ordered d.types)
    (hrun : postTypeBoundProcedureStmt tbl st s = .ok st') :
    Describes tbl (d.declare tbl (.one (.postTypeBoundProcedureStmt s) rfl)) st'.classes := by
  have hflag : st.inDerivedTypeDef = d.inDerivedTypeDef := h.inDerivedTypeDef
  unfold postTypeBoundProcedureStmt at hrun
  rw [hflag] at hrun
  cases hin : d.inDerivedTypeDef with
  | false =>
    rw [hin] at hrun
    cases hrun
    simpa only [Declared.declare, hin] using h
  | true =>
    rw [hin, Bool.not_true, if_neg Bool.false_ne_true] at hrun
    cases s with
    | withoutInterface declarations =>
      obtain ⟨t, ht, hrun⟩ := bind_eq_ok.mp hrun
      obtain ⟨hmem, hlast⟩ := h.current ht
      simp only [Declared.declare, hin, hlast, Declared.ofStmt]
      refine h.bindAll (fun s x s' hx => ?_) hord hmem hrun
      rcases addDeclaration_eq_ok hx with ⟨hname, rfl⟩ | ⟨name, v, hname, hv, hadd⟩
      · exact .inl ⟨by rw [Declared.ofDeclaration, hname, Option.bind_none], rfl⟩
      · exact .inr ⟨(tbl.name name, v), by rw [Declared.ofDeclaration, hname, Option.bind_some, hv, Option.map_some], hadd⟩
    | withInterface bindingNames =>
      obtain ⟨t, ht, hrun⟩ := bind_eq_ok.mp hrun
      obtain ⟨hmem, hlast⟩ := h.current ht
      simp only [Declared.declare, hin, hlast, Declared.ofStmt]
      refine h.bindAll (fun s x s' hx => ?_) hord hmem hrun
      rcases addBindingName_eq_ok hx with ⟨hno, rfl⟩ | ⟨sym, v, rfl, hv, hadd⟩
      · refine .inl ⟨?_, rfl⟩
        cases x with
        | none => rfl
        | some sym =>
          rw [Declared.ofBindingName, Option.bind_some]
          split
          · next v hv => exact absurd hv (hno sym v rfl)
          · rfl
      · exact .inr ⟨(tbl.name sym, v), by rw [Declared.ofBindingName, Option.bind_some, hv], hadd⟩

theorem Describes.boundOperators {spec : Option (DefinedOperator σ)} {names : List (Option σ)} (h : Describes tbl d st.classes)
    (hord : Ordered d.types) (hrun : postTypeBoundGenericStmt tbl st spec names = .ok st') :
    Describes tbl (d.declare tbl (.one (.postTypeBoundGenericStmt spec names) rfl)) st'.classes := by
  have hflag : st.inDerivedTypeDef = d.inDerivedTypeDef := h.inDerivedTypeDef
  unfold postTypeBoundGenericStmt at hrun
  rw [hflag] at hrun
  cases hin : d.inDerivedTypeDef with
  | false =>
    rw [hin] at hrun
    cases hrun
    cases spec <;> simpa only [Declared.declare, hin] using h
  | true =>
    rw [hin, Bool.not_true, if_neg Bool.false_ne_true] at hrun
    obtain ⟨t, ht, hrun⟩ := bind_eq_ok.mp hrun
    obtain ⟨hmem, hlast⟩ := h.current ht
    cases spec with
    | none =>
      cases hrun
      exact h
    | some op =>
      have hnames : names.reduceOption.map (fun n => (getOperatorStringFromDefinedOperator op, tbl.name n)) =
          (names.filterMap (Option.map tbl.name)).map (getOperatorStringFromDefinedOperator op, ·) := by
        rw [List.reduceOption, List.map_filterMap, List.map_filterMap]
        exact List.filterMap_congr fun n _ => by cases n <;> rfl
      simp only [Declared.declare, hin, hlast, hnames]
      refine h.operateAll (fun s x s' hx => ?_) hord hmem hrun
      cases x with
      | none => cases hx
      | some sym => exact ⟨tbl.name sym, rfl, hx⟩

theorem Describes.one {c : Callback σ} {hstart : c.startsType = false} (h : Describes tbl d st.classes)
    (hord : Ordered (d.declare tbl (.one c hstart)).types) (hrun : visit tbl opts st c = .ok st') :
    Describes tbl (d.declare tbl (.one c hstart)) st'.classes := by
  cases hc : c.aboutTypes with
  | false =>
    rw [declare_other d hstart hc, (visit_changes hc hrun).classes]
    exact h
  | true =>
    have hknown : Ordered d.types := hord.of_prefix (declare_types d _)
    cases c with
    | postDerivedTypeDef =>
      obtain ⟨t, ht, hrun⟩ := bind_eq_ok.mp hrun
      obtain ⟨hmem, hlast⟩ := h.current ht
      split at hrun
      · cases hrun
      · next canon hcanon =>
        have hclosed : Describes tbl { d with inDerivedTypeDef := false } { st with inDerivedTypeDef := false }.classes :=
          ⟨rfl, h.types, h.overwrites, h.finalizers, h.operators, h.knownBindings, h.knownFinals, h.knownOperators⟩
        have hall := hclosed.finalizeAll hknown hmem hrun
        simpa only [Declared.declare, hlast, hcanon, Option.elim_some] using hall
    | postTypeBoundProcedureStmt s => exact h.boundProcedures hknown hrun
    | postTypeBoundGenericStmt spec names => exact h.boundOperators hknown hrun
    | postUseStmt moduleName =>
      cases moduleName with
      | none => cases hrun
      | some sym => exact h.useSymbols hord hrun
    | preDerivedTypeDef | preDerivedTypeStmt | postTypeAttrSpec => cases hstart
    | _ => cases hc

theorem Describes.chunk {ch : Chunk σ} (h : Describes tbl d st.classes) (hord : Ordered (d.declare tbl ch).types)
    (hrun : walk tbl opts st ch.callbacks = .ok st') : Describes tbl (d.declare tbl ch) st'.classes := by
  cases ch with
  | one c hstart =>
    rw [Chunk.callbacks, walk, List.foldlM_cons] at hrun
    obtain ⟨st₁, hvisit, hrun⟩ := bind_eq_ok.mp hrun
    cases hrun
    exact h.one hord hvisit
  | typeStart typeSymbol attrs =>
    rw [typeStart_walk] at hrun
    cases hrun
    exact h.newType hord rfl rfl ⟨rfl, rfl, rfl⟩

/-! ## The file -/

/-- What a file declares. -/
def declaredBy (tbl : SymbolTable σ) (chunks : List (Chunk σ)) : Declared σ := chunks.foldl (Declared.declare tbl) .none

theorem Describes.start (cg : Callgraph) : Describes tbl .none (State.start cg).classes := by
  have hnone : ∀ {κ β : Type} (table : Option σ → κ → List β), (∀ b k, table b k = []) → Filed tbl [] [] table := by
    intro κ β table htable b k v
    rw [htable]
    simp
  exact ⟨rfl, rfl, hnone _ fun _ _ => rfl, hnone _ fun _ _ => rfl, hnone _ fun _ _ => rfl, fun e he => absurd he List.not_mem_nil,
    fun e he => absurd he List.not_mem_nil, fun e he => absurd he List.not_mem_nil⟩

theorem declares_types (d : Declared σ) (chunks : List (Chunk σ)) : d.types <+: (chunks.foldl (Declared.declare tbl) d).types := by
  induction chunks generalizing d with
  | nil => exact List.prefix_rfl
  | cons ch chunks ih => exact (declare_types d ch).trans (ih _)

/-- The collector files what the file declares, chunk after chunk. -/
theorem Describes.walk {chunks : List (Chunk σ)} (h : Describes tbl d st.classes)
    (hord : Ordered (chunks.foldl (Declared.declare tbl) d).types)
    (hrun : walk tbl opts st (chunks.flatMap Chunk.callbacks) = .ok st') :
    Describes tbl (chunks.foldl (Declared.declare tbl) d) st'.classes := by
  induction chunks generalizing d st with
  | nil =>
    cases hrun
    exact h
  | cons ch chunks ih =>
    rw [List.flatMap_cons, Fortran.walk, List.foldlM_append] at hrun
    obtain ⟨st₁, hch, hrest⟩ := bind_eq_ok.mp hrun
    exact ih (h.chunk (hord.of_prefix (declares_types _ chunks)) hch) hord hrest

end MetaCG.Fortran
