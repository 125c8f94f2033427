import MetaCG.Fortran.CallbackEffects
import MetaCG.Fortran.TypeForest

/-! What a file declares about its types, and how the collector files it.

The collector files procedures, finalizers and operators under the base of the type that declares them, so that all types with
one base share an entry. `Declared` keeps the declarations as they come; `Describes` says that the tables hold just them. -/
namespace MetaCG.Fortran
open Foundations
set_option autoImplicit false
set_option maxHeartbeats 250000
set_option maxRecDepth 120000

/-- The declarations of a file, each with the entry of the type that makes it. -/
structure Declared (σ : Type) where
  inDerivedTypeDef : Bool
  types : List (TypeEntry σ)
  bindings : List (TypeEntry σ × String × σ)
  finals : List (TypeEntry σ × Unit × σ)
  operators : List (TypeEntry σ × String × String)

/-- The statement of a derived type is walked with its attributes in one go. -/
def Callback.startsType {σ : Type} : Callback σ → Bool
  | .preDerivedTypeDef | .preDerivedTypeStmt _ | .postTypeAttrSpec _ => true
  | _ => false

inductive Chunk (σ : Type) where
  | one (c : Callback σ) (h : c.startsType = false)
  | typeStart (typeSymbol : σ) (attrs : List (Option σ))

def Chunk.callbacks {σ : Type} : Chunk σ → List (Callback σ)
  | .one c _ => [c]
  | .typeStart typeSymbol attrs =>
    [.preDerivedTypeDef, .preDerivedTypeStmt (some typeSymbol)] ++ attrs.map fun a => .postTypeAttrSpec (a.map some)

namespace Declared
variable {σ : Type} [DecidableEq σ] [Fintype σ] (tbl : SymbolTable σ)

def none : Declared σ := ⟨false, [], [], [], []⟩

/-- The last type that has been met. -/
def lastType (d : Declared σ) : Option (TypeEntry σ) := d.types.getLast?

def bind (d : Declared σ) (t : TypeEntry σ) (l : List (String × σ)) : Declared σ :=
  { d with bindings := d.bindings ++ l.map (t, ·) }

def finalize (d : Declared σ) (t : TypeEntry σ) (l : List σ) : Declared σ := { d with finals := d.finals ++ l.map (t, (), ·) }

def operate (d : Declared σ) (t : TypeEntry σ) (l : List (String × String)) : Declared σ :=
  { d with operators := d.operators ++ l.map (t, ·) }

/-- The bindings of a declaration or of a binding name. -/
def ofDeclaration (decl : TypeBoundProcDecl σ) : Option (String × σ) :=
  decl.name.bind fun name => (decl.procedure.getD (some name)).map fun value => (tbl.name name, value)

def ofBindingName (n : Option σ) : Option (String × σ) :=
  n.bind fun sym =>
    match tbl.details sym with
    | .procBinding procedure => some (tbl.name sym, procedure)
    | _ => Option.none

def ofStmt : TypeBoundProcedureStmt σ → List (String × σ)
  | .withoutInterface declarations => declarations.filterMap (ofDeclaration tbl)
  | .withInterface bindingNames => bindingNames.filterMap (ofBindingName tbl)

def useComponent (t : TypeEntry σ) (d : Declared σ) (component : σ) : Declared σ :=
  match tbl.details component with
  | .procBinding procedure => d.bind t [(tbl.name component, procedure)]
  | .generic kind specificProcs =>
    d.operate t (specificProcs.map fun p => (getOperatorStringFromGenericDetails tbl component kind, tbl.name p))
  | _ => d

def useSymbol (d : Declared σ) (symbol : σ) : Declared σ :=
  match tbl.details symbol with
  | .derivedType finals parentComponent =>
    let t := ⟨some symbol, parentOf tbl parentComponent⟩
    ((tbl.scope symbol).getD []).foldl (useComponent tbl t) (finalize { d with types := d.types ++ [t] } t finals)
  | _ => d

def declare (d : Declared σ) : Chunk σ → Declared σ
  | .typeStart typeSymbol attrs =>
    { d with inDerivedTypeDef := true, types := d.types ++ [⟨some typeSymbol, attrs.reduceOption.getLast?⟩] }
  | .one .postDerivedTypeDef _ =>
    match d.lastType with
    | some t => finalize { d with inDerivedTypeDef := false } t
        ((tbl.canonicalizeSymbol t.typeSymbol .Identity).symbol.elim [] (Fortran.finals tbl))
    | Option.none => d
  | .one (.postTypeBoundProcedureStmt s) _ =>
    match d.inDerivedTypeDef, d.lastType with
    | true, some t => d.bind t (ofStmt tbl s)
    | _, _ => d
  | .one (.postTypeBoundGenericStmt (some op) names) _ =>
    match d.inDerivedTypeDef, d.lastType with
    | true, some t => d.operate t (names.reduceOption.map fun n => (getOperatorStringFromDefinedOperator op, tbl.name n))
    | _, _ => d
  | .one (.postUseStmt (some moduleName)) _ => ((tbl.scope moduleName).getD []).foldl (useSymbol tbl) d
  | .one _ _ => d

end Declared

/-! ## Filing under bases -/

section
variable {σ κ β : Type} [DecidableEq σ] [Fintype σ] {tbl : SymbolTable σ} {types more : List (TypeEntry σ)}
  {log : List (TypeEntry σ × κ × β)} {table : Option σ → κ → List β}

/-- The key of a base. -/
def baseKey (tbl : SymbolTable σ) (r : σ) : Option σ := (tbl.canonicalizeSymbol (some r) .Identity).symbol

/-- The table holds what the log says, under the bases of the types. -/
def Filed (tbl : SymbolTable σ) (types : List (TypeEntry σ)) (log : List (TypeEntry σ × κ × β))
    (table : Option σ → κ → List β) : Prop :=
  ∀ b k v, v ∈ table b k ↔ ∃ t r, (t, k, v) ∈ log ∧ BaseOf types t r ∧ baseKey tbl r = b

/-- Only known types make declarations. -/
def Known (types : List (TypeEntry σ)) (log : List (TypeEntry σ × κ × β)) : Prop := ∀ e ∈ log, e.1 ∈ types

/-- The bases of known types do not change, so that nothing has to be moved. -/
theorem Filed.extend (h : Filed tbl types log table) (hknown : Known types log) (hord : Ordered (types ++ more)) :
    Filed tbl (types ++ more) log table := by
  intro b k v
  rw [h b k v]
  constructor
  · rintro ⟨t, r, he, hr, hb⟩
    exact ⟨t, r, he, hr.extend hord (hknown _ he), hb⟩
  · rintro ⟨t, r, he, hr, hb⟩
    obtain ⟨r', hr'⟩ := hord.prefix.exists_baseOf (hknown _ he)
    exact ⟨t, r', he, hr', (hr'.extend hord (hknown _ he)).unique hr ▸ hb⟩

omit [DecidableEq σ] [Fintype σ] in
theorem mem_pushAt {κ : Type} [DecidableEq κ] (map : UMap κ (List β)) (key k : κ) (value v : β) :
    v ∈ UMap.getD (pushAt map key value) k [] ↔ v ∈ UMap.getD map k [] ∨ k = key ∧ v = value := by
  rw [pushAt, UMap.getD_insert]
  split_ifs with h
  · rw [h, List.mem_append, List.mem_singleton]
    simp
  · simp [h]

theorem Filed.push (h : Filed tbl types log table) {t : TypeEntry σ} {r : σ} (hr : BaseOf types t r) (k₀ : κ) (v₀ : β)
    {table' : Option σ → κ → List β}
    (htable : ∀ b k v, v ∈ table' b k ↔ v ∈ table b k ∨ (b = baseKey tbl r ∧ k = k₀) ∧ v = v₀) :
    Filed tbl types (log ++ [(t, k₀, v₀)]) table' := by
  intro b k v
  have hnew : (∃ t' r', (t', k, v) ∈ [(t, k₀, v₀)] ∧ BaseOf types t' r' ∧ baseKey tbl r' = b) ↔
      (b = baseKey tbl r ∧ k = k₀) ∧ v = v₀ := by
    constructor
    · rintro ⟨t', r', he, hr', hb⟩
      rw [List.mem_singleton] at he
      obtain ⟨rfl, rfl, rfl⟩ := he
      exact ⟨⟨hb.symm.trans (congrArg _ (hr'.unique hr)), rfl⟩, rfl⟩
    · rintro ⟨⟨rfl, rfl⟩, rfl⟩
      exact ⟨t, r, List.mem_singleton_self _, hr, rfl⟩
  rw [htable, h b k v, ← hnew]
  simp only [List.mem_append, or_and_right, exists_or]

/-- The tables of the collector hold what is declared. -/
structure Describes (tbl : SymbolTable σ) (d : Declared σ) (c : Classes σ) : Prop where
  inDerivedTypeDef : c.inDerivedTypeDef = d.inDerivedTypeDef
  types : c.types = d.types
  overwrites : Filed tbl d.types d.bindings fun b n => UMap.getD c.procedureOverwrites (b, n) []
  finalizers : Filed tbl d.types d.finals fun b _ => UMap.getD c.finalizers b []
  operators : Filed tbl d.types d.operators fun b op => UMap.getD c.typeOperators (b, op) []
  knownBindings : Known d.types d.bindings
  knownFinals : Known d.types d.finals
  knownOperators : Known d.types d.operators

end

section
variable {σ : Type} [DecidableEq σ] [Fintype σ] {tbl : SymbolTable σ} {st st' : State σ} {d : Declared σ} {t : TypeEntry σ}

omit [DecidableEq σ] [Fintype σ] in
theorem Known.append {κ β : Type} {types : List (TypeEntry σ)} {log : List (TypeEntry σ × κ × β)} (h : Known types log)
    (ht : t ∈ types) (k : κ) (v : β) : Known types (log ++ [(t, k, v)]) := by
  intro e he
  rcases List.mem_append.mp he with he | he
  · exact h e he
  · rw [List.mem_singleton.mp he]
    exact ht

/-- The base of a known type, as a key. -/
theorem Describes.base (h : Describes tbl d st.classes) (hord : Ordered d.types) (ht : t ∈ d.types) :
    ∃ r, BaseOf d.types t r ∧ getAbsoluteBaseSymbol tbl st.types t = .ok (baseKey tbl r) := by
  obtain ⟨r, hr, hbase⟩ := hord.getAbsoluteBase_eq ht
  refine ⟨r, hr, ?_⟩
  have htypes : st.types = d.types := h.types
  rw [getAbsoluteBaseSymbol, htypes, hbase]
  rfl

theorem Describes.addOverwrite (h : Describes tbl d st.classes) (hord : Ordered d.types) (ht : t ∈ d.types) (n : String) (v : σ) :
    ∃ st', addOverwrite tbl t st n v = .ok st' ∧ Describes tbl (d.bind t [(n, v)]) st'.classes := by
  obtain ⟨r, hr, hbase⟩ := h.base hord ht
  have hadd : Fortran.addOverwrite tbl t st n v =
      .ok { st with procedureOverwrites := pushAt st.procedureOverwrites (baseKey tbl r, n) v } := by
    rw [Fortran.addOverwrite, hbase]
    rfl
  refine ⟨_, hadd, h.inDerivedTypeDef, h.types, h.overwrites.push hr n v fun b k w => ?_, h.finalizers, h.operators,
    h.knownBindings.append ht n v, h.knownFinals, h.knownOperators⟩
  rw [← Prod.mk.injEq]
  exact mem_pushAt st.procedureOverwrites (baseKey tbl r, n) (b, k) v w

theorem Describes.addFinalizer (h : Describes tbl d st.classes) (hord : Ordered d.types) (ht : t ∈ d.types) (v : σ) :
    ∃ st', addFinalizer tbl t st v = .ok st' ∧ Describes tbl (d.finalize t [v]) st'.classes := by
  obtain ⟨r, hr, hbase⟩ := h.base hord ht
  have hadd : Fortran.addFinalizer tbl t st v = .ok { st with finalizers := pushAt st.finalizers (baseKey tbl r) v } := by
    rw [Fortran.addFinalizer, hbase]
    rfl
  refine ⟨_, hadd, h.inDerivedTypeDef, h.types, h.overwrites, h.finalizers.push hr () v fun b k w => ?_, h.operators,
    h.knownBindings, h.knownFinals.append ht () v, h.knownOperators⟩
  simp only [and_true]
  exact mem_pushAt st.finalizers (baseKey tbl r) b v w

theorem Describes.addTypeOperator (h : Describes tbl d st.classes) (hord : Ordered d.types) (ht : t ∈ d.types) (op v : String) :
    ∃ st', addTypeOperator tbl t op st v = .ok st' ∧ Describes tbl (d.operate t [(op, v)]) st'.classes := by
  obtain ⟨r, hr, hbase⟩ := h.base hord ht
  have hadd : Fortran.addTypeOperator tbl t op st v =
      .ok { st with typeOperators := pushAt st.typeOperators (baseKey tbl r, op) v } := by
    rw [Fortran.addTypeOperator, hbase]
    rfl
  refine ⟨_, hadd, h.inDerivedTypeDef, h.types, h.overwrites, h.finalizers, h.operators.push hr op v fun b k w => ?_,
    h.knownBindings, h.knownFinals, h.knownOperators.append ht op v⟩
  rw [← Prod.mk.injEq]
  exact mem_pushAt st.typeOperators (baseKey tbl r, op) (b, k) v w

/-! ## The loops -/

/-- A loop each of whose rounds makes one declaration. -/
theorem Describes.loop {α : Type} {add : State σ → α → Except Exn (State σ)} {D : Declared σ → α → Declared σ}
    (htypes : ∀ d x, (D d x).types = d.types)
    (hround : ∀ d' s x s', d'.types = d.types → Describes tbl d' s.classes → add s x = .ok s' → Describes tbl (D d' x) s'.classes)
    {l : List α} (h : Describes tbl d st.classes) (hrun : l.foldlM add st = .ok st') :
    Describes tbl (l.foldl D d) st'.classes ∧ (l.foldl D d).types = d.types := by
  refine foldlM_ok_inv
    (J := fun (pre : List α) (s : State σ) => Describes tbl (pre.foldl D d) s.classes ∧ (pre.foldl D d).types = d.types) ⟨h, rfl⟩
    (fun pre x s s' _ hJ hstep => ?_) hrun
  rw [List.foldl_append, List.foldl_cons, List.foldl_nil]
  exact ⟨hround _ s x s' hJ.2 hJ.1 hstep, (htypes _ x).trans hJ.2⟩

omit [DecidableEq σ] [Fintype σ] in
theorem foldl_bind {α : Type} (t : TypeEntry σ) (of : α → Option (String × σ)) (l : List α) (d : Declared σ) :
    l.foldl (fun d x => d.bind t (of x).toList) d = d.bind t (l.filterMap of) := by
  induction l generalizing d with
  | nil => simp [Declared.bind]
  | cons x l ih =>
    rw [List.foldl_cons, ih]
    cases hx : of x <;> simp [Declared.bind, hx]

omit [DecidableEq σ] [Fintype σ] in
theorem foldl_finalize (t : TypeEntry σ) (l : List σ) (d : Declared σ) :
    l.foldl (fun d x => d.finalize t [x]) d = d.finalize t l := by
  induction l generalizing d with
  | nil => simp [Declared.finalize]
  | cons x l ih =>
    rw [List.foldl_cons, ih]
    simp [Declared.finalize]

omit [DecidableEq σ] [Fintype σ] in
theorem foldl_operate {α : Type} (t : TypeEntry σ) (op : String) (of : α → Option String) (l : List α) (d : Declared σ) :
    l.foldl (fun d x => d.operate t ((of x).toList.map (op, ·))) d = d.operate t ((l.filterMap of).map (op, ·)) := by
  induction l generalizing d with
  | nil => simp [Declared.operate]
  | cons x l ih =>
    rw [List.foldl_cons, ih]
    cases hx : of x <;> simp [Declared.operate, hx]

/-- The bindings of a type. -/
theorem Describes.bindAll {α : Type} {add : State σ → α → Except Exn (State σ)} {of : α → Option (String × σ)}
    (hadd : ∀ s x s', add s x = .ok s' → of x = none ∧ s' = s ∨ ∃ e, of x = some e ∧ Fortran.addOverwrite tbl t s e.1 e.2 = .ok s')
    {l : List α} (h : Describes tbl d st.classes) (hord : Ordered d.types) (ht : t ∈ d.types)
    (hrun : l.foldlM add st = .ok st') : Describes tbl (d.bind t (l.filterMap of)) st'.classes := by
  rw [← foldl_bind]
  refine (h.loop (D := fun d x => d.bind t (of x).toList) (fun _ _ => rfl) (fun d' s x s' hd' hs hstep => ?_) hrun).1
  rcases hadd s x s' hstep with ⟨hnone, rfl⟩ | ⟨e, he, hstep⟩
  · rw [hnone]
    simpa [Declared.bind] using hs
  · obtain ⟨s₁, hs₁, hdesc⟩ := hs.addOverwrite (hd' ▸ hord) (hd' ▸ ht) e.1 e.2
    rw [he]
    exact Except.ok.inj (hstep.symm.trans hs₁) ▸ hdesc

theorem Describes.finalizeAll {l : List σ} (h : Describes tbl d st.classes) (hord : Ordered d.types) (ht : t ∈ d.types)
    (hrun : l.foldlM (Fortran.addFinalizer tbl t) st = .ok st') :
    Describes tbl (d.finalize t l) st'.classes := by
  rw [← foldl_finalize]
  refine (h.loop (D := fun d x => d.finalize t [x]) (fun _ _ => rfl) (fun d' s x s' hd' hs hstep => ?_) hrun).1
  obtain ⟨s₁, hs₁, hdesc⟩ := hs.addFinalizer (hd' ▸ hord) (hd' ▸ ht) x
  exact Except.ok.inj (hstep.symm.trans hs₁) ▸ hdesc

theorem Describes.operateAll {α : Type} {op : String} {add : State σ → α → Except Exn (State σ)} {of : α → Option String}
    (hadd : ∀ s x s', add s x = .ok s' → ∃ v, of x = some v ∧ Fortran.addTypeOperator tbl t op s v = .ok s')
    {l : List α} (h : Describes tbl d st.classes) (hord : Ordered d.types) (ht : t ∈ d.types)
    (hrun : l.foldlM add st = .ok st') : Describes tbl (d.operate t ((l.filterMap of).map (op, ·))) st'.classes := by
  rw [← foldl_operate]
  refine (h.loop (D := fun d x => d.operate t ((of x).toList.map (op, ·))) (fun _ _ => rfl)
    (fun d' s x s' hd' hs hstep => ?_) hrun).1
  obtain ⟨v, hv, hstep⟩ := hadd s x s' hstep
  obtain ⟨s₁, hs₁, hdesc⟩ := hs.addTypeOperator (hd' ▸ hord) (hd' ▸ ht) op v
  rw [hv]
  exact Except.ok.inj (hstep.symm.trans hs₁) ▸ hdesc

/-- A type is met. What was declared before stays where it is. -/
theorem Describes.newType (h : Describes tbl d st.classes) {t : TypeEntry σ} {inDef : Bool} (hord : Ordered (d.types ++ [t]))
    (hinDef : st'.inDerivedTypeDef = inDef) (htypes : st'.types = st.types ++ [t])
    (htables : st'.procedureOverwrites = st.procedureOverwrites ∧ st'.finalizers = st.finalizers ∧
      st'.typeOperators = st.typeOperators) :
    Describes tbl { d with inDerivedTypeDef := inDef, types := d.types ++ [t] } st'.classes := by
  have hmore : ∀ {κ β : Type} {log : List (TypeEntry σ × κ × β)}, Known d.types log → Known (d.types ++ [t]) log :=
    fun hknown e he => List.mem_append_left _ (hknown e he)
  obtain ⟨hoverwrites, hfinalizers, hoperators⟩ := htables
  refine ⟨hinDef, htypes.trans (congrArg (· ++ [t]) h.types), ?_, ?_, ?_, hmore h.knownBindings, hmore h.knownFinals,
    hmore h.knownOperators⟩
  · change Filed tbl (d.types ++ [t]) d.bindings fun b n => UMap.getD st'.procedureOverwrites (b, n) []
    rw [hoverwrites]
    exact h.overwrites.extend h.knownBindings hord
  · change Filed tbl (d.types ++ [t]) d.finals fun b _ => UMap.getD st'.finalizers b []
    rw [hfinalizers]
    exact h.finalizers.extend h.knownFinals hord
  · change Filed tbl (d.types ++ [t]) d.operators fun b op => UMap.getD st'.typeOperators (b, op) []
    rw [hoperators]
    exact h.operators.extend h.knownOperators hord

end
end MetaCG.Fortran
