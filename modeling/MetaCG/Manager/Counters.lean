import MetaCG.Foundations.Accumulate
import MetaCG.Manager.MCGManager

/-! Counters in a whole-program merge.

`CodeStatisticsMD`, `NumConditionalBranchMD` and `NumOperationsMD` add the other value unless it
equals the own one. All three are read as quadruples of numbers, on which this is
`addUnlessEqual`; the whole-program merge accumulates the values of a function in the order in which
the graphs are visited. -/
namespace MetaCG
open Foundations
set_option autoImplicit false
set_option maxHeartbeats 250000
set_option maxRecDepth 120000

/-! ## Quadruples of numbers -/

namespace NumOperationsMD

@[ext] theorem ext_fields {a b : NumOperationsMD} (h₁ : a.numberOfIntOps = b.numberOfIntOps)
    (h₂ : a.numberOfFloatOps = b.numberOfFloatOps) (h₃ : a.numberOfControlFlowOps = b.numberOfControlFlowOps)
    (h₄ : a.numberOfMemoryAccesses = b.numberOfMemoryAccesses) : a = b := by
  cases a
  cases b
  simp_all

instance : Add NumOperationsMD := ⟨NumOperationsMD.add⟩

instance : Zero NumOperationsMD := ⟨⟨0, 0, 0, 0⟩⟩

instance : Neg NumOperationsMD :=
  ⟨fun a => ⟨-a.numberOfIntOps, -a.numberOfFloatOps, -a.numberOfControlFlowOps, -a.numberOfMemoryAccesses⟩⟩

instance : AddCommGroup NumOperationsMD where
  add_assoc a b c := ext_fields (Int32.add_assoc ..) (Int32.add_assoc ..) (Int32.add_assoc ..) (Int32.add_assoc ..)
  zero_add a := ext_fields (Int32.zero_add _) (Int32.zero_add _) (Int32.zero_add _) (Int32.zero_add _)
  add_zero a := ext_fields (Int32.add_zero _) (Int32.add_zero _) (Int32.add_zero _) (Int32.add_zero _)
  nsmul := nsmulRec
  zsmul := zsmulRec
  neg_add_cancel a := ext_fields (Int32.add_left_neg _) (Int32.add_left_neg _) (Int32.add_left_neg _)
    (Int32.add_left_neg _)
  add_comm a b := ext_fields (Int32.add_comm ..) (Int32.add_comm ..) (Int32.add_comm ..) (Int32.add_comm ..)

/-- A single number. -/
def single (n : Int32) : NumOperationsMD := ⟨n, 0, 0, 0⟩

theorem single_inj {a b : Int32} (h : single a = single b) : a = b := congrArg numberOfIntOps h

theorem merge_eq (a b : NumOperationsMD) : a.merge b = addUnlessEqual a b := by
  unfold NumOperationsMD.merge addUnlessEqual
  by_cases h : a = b
  · subst h
    simp
  · rw [if_pos h, if_pos]
    · rfl
    · by_contra hc
      simp only [not_or, not_not] at hc
      exact h (ext_fields hc.1.symm hc.2.1.symm hc.2.2.1.symm hc.2.2.2.symm)

theorem single_mergeCounter (a b : Int32) : single (mergeCounter a b) = addUnlessEqual (single a) (single b) := by
  unfold mergeCounter addUnlessEqual
  by_cases h : a = b
  · subst h
    simp
  · rw [if_pos h, if_pos (fun he => h (single_inj he))]
    exact ext_fields rfl (Int32.add_zero 0).symm (Int32.add_zero 0).symm (Int32.add_zero 0).symm

end NumOperationsMD

/-! ## Counters -/

namespace MetaData

/-- The kinds that are summed unless they agree. -/
def counterKeys : List String := ["codeStatistics", "numConditionalBranches", "numOperations"]

def numbers : MetaData → NumOperationsMD
  | .codeStatistics n => .single n
  | .numConditionalBranch n => .single n
  | .numOperations md => md
  | _ => 0

theorem counter_cases {md : MetaData} (h : md.getKey ∈ counterKeys) : (∃ n, md = .codeStatistics n) ∨
    (∃ n, md = .numConditionalBranch n) ∨ ∃ ops, md = .numOperations ops := by
  cases md with
  | codeStatistics n => exact .inl ⟨n, rfl⟩
  | numConditionalBranch n => exact .inr (.inl ⟨n, rfl⟩)
  | numOperations ops => exact .inr (.inr ⟨ops, rfl⟩)
  | _ => simp [getKey, counterKeys] at h

theorem numbers_inj {a b : MetaData} (ha : a.getKey ∈ counterKeys) (hk : a.getKey = b.getKey)
    (h : a.numbers = b.numbers) : a = b := by
  rcases counter_cases ha with ⟨n, rfl⟩ | ⟨n, rfl⟩ | ⟨ops, rfl⟩
  · cases b <;> simp [getKey] at hk
    exact congrArg _ (NumOperationsMD.single_inj h)
  · cases b <;> simp [getKey] at hk
    exact congrArg _ (NumOperationsMD.single_inj h)
  · cases b <;> simp [getKey] at hk
    exact congrArg _ h

theorem numbers_merge {own md m : MetaData} {action : Option MergeAction} {mapping : GraphMapping}
    (hkey : own.getKey ∈ counterKeys) (h : own.merge md action mapping = .ok m) :
    m.numbers = addUnlessEqual own.numbers md.numbers := by
  have hk := getKey_of_merge h
  rcases counter_cases hkey with ⟨n, rfl⟩ | ⟨n, rfl⟩ | ⟨ops, rfl⟩
  · cases md <;> simp [getKey] at hk
    cases h
    exact NumOperationsMD.single_mergeCounter _ _
  · cases md <;> simp [getKey] at hk
    cases h
    exact NumOperationsMD.single_mergeCounter _ _
  · cases md <;> simp [getKey] at hk
    cases h
    exact NumOperationsMD.merge_eq _ _

theorem numbers_clone {md c : MetaData} {mapping : GraphMapping} (hkey : md.getKey ∈ counterKeys)
    (h : md.cloneMapped mapping = .ok c) : c.numbers = md.numbers := by
  rcases counter_cases hkey with ⟨n, rfl⟩ | ⟨n, rfl⟩ | ⟨ops, rfl⟩ <;> cases h <;> rfl

end MetaData

namespace Callgraph

/-- What the first node of a name holds under a key. -/
def valueNamed (g : Callgraph) (name key : String) : Option MetaData :=
  (g.firstNamed name).bind fun i => g.nodeMeta i key

/-- What the nodes of a name hold under a key. -/
def valuesNamed (g : Callgraph) (name key : String) : List MetaData :=
  g.liveNodes.filterMap fun n => if n.functionName = name then n.metaFields.lookup key else none

/-- The numbers of a value; nothing counts as zero. -/
def numbersOf (value : Option MetaData) : NumOperationsMD := (value.map MetaData.numbers).getD 0

section
variable {T S g : Callgraph} {r : MergeRecorder}

theorem absorbNodeEntries_numbers {k : String} (hk : k ∈ MetaData.counterKeys) {l : List SourceEntry}
    {cell cell' : Option MetaData} (hcell : ∀ own ∈ cell, own.getKey = k)
    (hl : ∀ x ∈ l, x.2.2.getKey = k ∧ Mapped r.mapping x.2.2.refs)
    (h : l.foldlM (absorbNodeEntry r) cell = .ok cell') :
    numbersOf cell' = (l.map fun x => x.2.2.numbers).foldl addUnlessEqual (numbersOf cell) ∧
      (cell'.isSome = true ↔ cell.isSome = true ∨ l ≠ []) := by
  have hinv := foldlM_ok_inv (f := absorbNodeEntry r) (l := l)
    (J := fun pre c => (∀ own ∈ c, own.getKey = k) ∧
      numbersOf c = (pre.map fun x => x.2.2.numbers).foldl addUnlessEqual (numbersOf cell) ∧
      (c.isSome = true ↔ cell.isSome = true ∨ pre ≠ []))
    ⟨hcell, rfl, by simp⟩ ?_ h
  · exact hinv.2
  · rintro pre x c c' hpre ⟨hkey, hnum, -⟩ hstep
    have hx := hl x (hpre.subset (by simp))
    have hkey' := absorbNodeEntries_keyed (l := [x]) hkey (by simpa using hx)
      (by rw [List.foldlM_cons, hstep]; rfl)
    rw [List.map_append, List.foldl_append, ← hnum]
    rcases absorbNodeEntry_cases hstep with ⟨c₁, rfl, rfl, hclone⟩ | ⟨own, m, act, rfl, rfl, hm⟩
    · refine ⟨hkey', ?_, by simp⟩
      change c₁.numbers = addUnlessEqual 0 x.2.2.numbers
      rw [zero_addUnlessEqual, MetaData.numbers_clone (by rw [hx.1]; exact hk) hclone]
    · refine ⟨hkey', ?_, by simp⟩
      exact MetaData.numbers_merge (by rw [hkey own rfl]; exact hk) hm

/-- The values that arrive at the first node of a name are those of the source nodes of that name. -/
theorem Merged.valuesAt_eq (hS : S.Wf) (h : Merged T S r g) {name : String} {t : ℕ}
    (ht : g.firstNamed name = some t) (k : String) :
    (valuesAt r S.liveNodes t k).map (fun x => x.2.2) = S.valuesNamed name k := by
  unfold valuesAt valuesNamed
  rw [List.map_filterMap]
  refine List.filterMap_congr fun s hs => ?_
  by_cases hname : s.functionName = name
  · rw [if_pos ((h.mapped_iff hS hs ht).mpr hname), if_pos hname]
    cases s.metaFields.lookup k <;> rfl
  · rw [if_neg (fun hm => hname ((h.mapped_iff hS hs ht).mp hm)), if_neg hname]
    rfl

theorem Merged.nodeMeta_first (h : Merged T S r g) {name : String} {t : ℕ} (ht : g.firstNamed name = some t)
    (k : String) : T.nodeMeta t k = T.valueNamed name k := by
  unfold valueNamed
  rcases h.first_cases ht with hT | ⟨hT, hslot⟩
  · rw [hT]
    rfl
  · rw [hT, Callgraph.nodeMeta, hslot]
    rfl

/-- One merge adds the numbers of the source nodes of a name, in turn. -/
theorem Merged.numbers (hT : Target T) (hS : Source S) (h : Merged T S r g) (name : String) {k : String}
    (hk : k ∈ MetaData.counterKeys) :
    numbersOf (g.valueNamed name k) =
        ((S.valuesNamed name k).map MetaData.numbers).foldl addUnlessEqual (numbersOf (T.valueNamed name k)) ∧
      ((g.valueNamed name k).isSome = true ↔
        (T.valueNamed name k).isSome = true ∨ S.valuesNamed name k ≠ []) := by
  cases ht : g.firstNamed name with
  | none =>
    have hno := h.hasName name
    rw [Callgraph.hasName, ht, Option.isSome_none, eq_comm, Bool.or_eq_false_iff] at hno
    have hTn : T.valueNamed name k = none := by
      have : T.firstNamed name = none := by simpa [Callgraph.hasName] using hno.1
      rw [valueNamed, this]
      rfl
    have hSn : S.valuesNamed name k = [] := by
      rw [valuesNamed, List.filterMap_eq_nil_iff]
      intro s hs
      rw [if_neg]
      intro he
      have := (hasName_iff hS.wf name).mpr ⟨s, hs, he⟩
      rw [hno.2] at this
      cases this
    have hgn : g.valueNamed name k = none := by rw [valueNamed, ht]; rfl
    rw [hTn, hSn, hgn]
    exact ⟨rfl, by simp⟩
  | some t =>
    have hg : g.valueNamed name k = g.nodeMeta t k := by rw [valueNamed, ht]; rfl
    have hvals := h.valuesAt_eq hS.wf ht k
    have hcell := absorbNodeEntries_numbers hk (fun own hown => hT.keyed.nodeMeta hown) (fun x hx => by
      obtain ⟨s, hs, -, -, -, hl⟩ := valuesAt_mem hx
      have hpair := (UMap.mem_toPairs k x.2.2 s.metaFields).mpr hl
      exact ⟨hS.keyed.node s hs _ hpair, h.mapped_refs hS.wf (hS.refs.node s hs (k, x.2.2) hpair)⟩) (h.nodeMeta t k)
    rw [hg, ← h.nodeMeta_first ht, ← hvals]
    refine ⟨by rw [hcell.1, List.map_map]; rfl, ?_⟩
    rw [hcell.2, ne_eq, ne_eq, List.map_eq_nil_iff]

theorem valueNamed_key (hT : Target T) {name k : String} : ∀ md ∈ T.valueNamed name k, md.getKey = k := by
  intro md hmd
  obtain ⟨i, -, hi⟩ := Option.bind_eq_some_iff.mp hmd
  exact hT.keyed.nodeMeta hi

end

/-- A sequence of merges accumulates the numbers of a name along the sequence. -/
theorem mergeAll_numbers {T g : Callgraph} (hT : Target T) {L : List Callgraph} (hL : ∀ S ∈ L, Source S)
    (name : String) {k : String} (hk : k ∈ MetaData.counterKeys) (h : mergeAll mergeByName T L = .ok g) :
    Target g ∧ numbersOf (g.valueNamed name k) =
        ((L.flatMap fun S => S.valuesNamed name k).map MetaData.numbers).foldl addUnlessEqual
          (numbersOf (T.valueNamed name k)) ∧
      ((g.valueNamed name k).isSome = true ↔
        (T.valueNamed name k).isSome = true ∨ L.flatMap (fun S => S.valuesNamed name k) ≠ []) := by
  refine mergeAll_inv (P := fun pre g => numbersOf (g.valueNamed name k) =
      ((pre.flatMap fun S => S.valuesNamed name k).map MetaData.numbers).foldl addUnlessEqual
        (numbersOf (T.valueNamed name k)) ∧
      ((g.valueNamed name k).isSome = true ↔
        (T.valueNamed name k).isSome = true ∨ pre.flatMap (fun S => S.valuesNamed name k) ≠ []))
    hT hL ⟨rfl, by simp⟩ ?_ h
  rintro pre S g₁ g₂ r hg₁ hS hM ⟨hnum, hsome⟩
  obtain ⟨hnum', hsome'⟩ := hM.numbers hg₁ (hL S hS) name hk
  rw [List.flatMap_append, List.flatMap_singleton]
  refine ⟨?_, ?_⟩
  · rw [hnum', hnum, List.map_append, List.foldl_append]
  · rw [hsome', hsome, or_assoc, ne_eq, ne_eq, ne_eq, List.append_eq_nil_iff, not_and_or]

/-- Counter values of one kind are determined by their numbers. -/
theorem value_eq_of_numbers {a b : Option MetaData} {k : String} (hk : k ∈ MetaData.counterKeys)
    (ha : ∀ md ∈ a, md.getKey = k) (hb : ∀ md ∈ b, md.getKey = k) (hsome : a.isSome = true ↔ b.isSome = true)
    (h : numbersOf a = numbersOf b) : a = b := by
  cases a with
  | none =>
    cases b with
    | none => rfl
    | some y => simp at hsome
  | some x =>
    cases b with
    | none => simp at hsome
    | some y =>
      have hx := ha x rfl
      exact congrArg some (MetaData.numbers_inj (by rw [hx]; exact hk) (hx.trans (hb y rfl).symm) h)

/-- A function with at most one node has at most one value. -/
theorem valuesNamed_of_mem {S : Callgraph} (hS : S.Wf) {name k : String} (hone : (S.getNodesNamed name).length ≤ 1)
    {md : MetaData} (hmd : md ∈ S.valuesNamed name k) : S.valuesNamed name k = [md] := by
  have hids : ∀ s ∈ S.liveNodes, ∀ s' ∈ S.liveNodes, s.functionName = name → s'.functionName = name →
      s.id = s'.id := by
    intro s hs s' hs' hn hn'
    have h₁ := (hS.mem_named name s.id).mpr ⟨s, hS.slot_of_mem hs, hn⟩
    have h₂ := (hS.mem_named name s'.id).mpr ⟨s', hS.slot_of_mem hs', hn'⟩
    obtain ⟨t, ht⟩ : ∃ t, S.getNodesNamed name = [t] := List.length_eq_one_iff.mp (by
      have := List.length_pos_of_mem h₁
      omega)
    rw [ht, List.mem_singleton] at h₁ h₂
    rw [h₁, h₂]
  have hname : ∀ {s : CgNode} {x : MetaData},
      (if s.functionName = name then s.metaFields.lookup k else none) = some x → s.functionName = name := by
    intro s x hx
    by_contra hne
    rw [if_neg hne] at hx
    cases hx
  cases hl : S.valuesNamed name k with
  | nil => rw [hl] at hmd; cases hmd
  | cons x rest =>
    obtain ⟨l₁, s, l₂, hlive, -, hx, hrest⟩ := List.filterMap_eq_cons_iff.mp hl
    have hnil : rest = [] := by
      cases rest with
      | nil => rfl
      | cons y rest =>
        obtain ⟨l₃, s', l₄, rfl, -, hy, -⟩ := List.filterMap_eq_cons_iff.mp hrest
        have hs : s ∈ S.liveNodes := by rw [hlive]; simp
        have hs' : s' ∈ S.liveNodes := by rw [hlive]; simp
        have hsplit : S.liveNodes = (l₁ ++ s :: l₃) ++ s' :: l₄ := by rw [hlive]; simp
        have hlt := (hS.id_lt_of_split hsplit s hs).mp (by simp)
        have := hids s hs s' hs' (hname hx) (hname hy)
        omega
    rw [hl, hnil, List.mem_singleton] at hmd
    rw [hnil, hmd]

end Callgraph

namespace MCGManager
open Callgraph

/-- One value comes out of all orders of the walk, and merging a graph again does not change it. -/
def CountersStable (m : MCGManager) (name key : String) : Prop :=
  ∃ value, ∀ order, m.Order order → ∃ g, m.MergesTo order g ∧ g.valueNamed name key = value ∧
    ∀ S ∈ m.others order, ∃ g', mergeInto mergeByName g S = .ok g' ∧ g'.valueNamed name key = value

/-- The numbers that the visited graphs hold for a function. -/
def countersNamed (m : MCGManager) (order : List String) (name key : String) : List NumOperationsMD :=
  ((m.others order).flatMap fun S => S.valuesNamed name key).map MetaData.numbers

/-- All merges return, also those that repeat a graph at the end. -/
def Returns (m : MCGManager) (T : Callgraph) : Prop :=
  ∀ order, m.Order order → T.MergeableAlong (m.others order) ∧
    ∀ S ∈ m.others order, T.MergeableAlong (m.others order ++ [S])

section
variable {m : MCGManager} {T g g' S : Callgraph} {order : List String}

theorem WholeProgram.again_iff (h : WholeProgram m T) (ho : m.Order order) (hg : m.MergesTo order g)
    (hS : S ∈ m.others order) :
    (∃ g', mergeInto mergeByName g S = .ok g') ↔ T.MergeableAlong (m.others order ++ [S]) := by
  have hsrc := h.sources ho
  have hrun := (h.mergesTo_iff_mergeAll ho g).mp hg
  rw [← mergeAll_ok_iff h.target (fun S' hS' => by
    rcases List.mem_append.mp hS' with hm | hm
    · exact hsrc S' hm
    · rw [List.mem_singleton.mp hm]
      exact hsrc S hS)]
  unfold mergeAll at hrun ⊢
  rw [List.foldlM_append, hrun]
  simp only [bind, Except.bind, List.foldlM_cons, List.foldlM_nil]
  constructor
  · rintro ⟨g', hg'⟩
    exact ⟨g', by rw [hg']; rfl⟩
  · rintro ⟨g', hg'⟩
    cases hm : mergeInto mergeByName g S with
    | error e => rw [hm] at hg'; cases hg'
    | ok g'' => exact ⟨g'', rfl⟩

theorem WholeProgram.again_numbers (h : WholeProgram m T) (ho : m.Order order) (hg : g.Target)
    (hS : S ∈ m.others order) (hrun : mergeInto mergeByName g S = .ok g') (name : String) {k : String}
    (hk : k ∈ MetaData.counterKeys) : g'.Target ∧ numbersOf (g'.valueNamed name k) =
        ((S.valuesNamed name k).map MetaData.numbers).foldl addUnlessEqual (numbersOf (g.valueNamed name k)) ∧
      ((g'.valueNamed name k).isSome = true ↔
        (g.valueNamed name k).isSome = true ∨ S.valuesNamed name k ≠ []) := by
  have hsrc := h.sources ho S hS
  obtain ⟨r, -, hM⟩ := mergeInto_ok hg hsrc hrun
  exact ⟨hM.target hg hsrc, hM.numbers hg hsrc name hk⟩

theorem foldl_stable {total : NumOperationsMD} {vs : List NumOperationsMD}
    (h : ∀ v ∈ vs, addUnlessEqual total v = total) : vs.foldl addUnlessEqual total = total := by
  induction vs with
  | nil => rfl
  | cons v vs ih =>
    rw [List.foldl_cons, h v (List.mem_cons_self ..)]
    exact ih (fun w hw => h w (List.mem_cons_of_mem v hw))

/-- Repeating a graph without effect makes its value agree with the total. -/
theorem WholeProgram.agrees (h : WholeProgram m T) {name k : String} (hk : k ∈ MetaData.counterKeys)
    (hone : ∀ S ∈ m.others m.getAllManagedGraphNames, (S.getNodesNamed name).length ≤ 1)
    (hst : m.CountersStable name k) :
    Agrees (numbersOf (T.valueNamed name k)) (m.countersNamed m.getAllManagedGraphNames name k) := by
  obtain ⟨value, hall⟩ := hst
  have ho : m.Order m.getAllManagedGraphNames := List.Perm.refl _
  obtain ⟨g, hg, hv, hagain⟩ := hall _ ho
  obtain ⟨hgt, hnum, -⟩ := mergeAll_numbers h.target (h.sources ho) name hk ((h.mergesTo_iff_mergeAll ho g).mp hg)
  refine agrees_of_stable fun v hvmem => ?_
  obtain ⟨md, hmd, rfl⟩ := List.mem_map.mp hvmem
  obtain ⟨S, hS, hmdS⟩ := List.mem_flatMap.mp hmd
  obtain ⟨g', hg', hv'⟩ := hagain S hS
  obtain ⟨-, hnum', -⟩ := h.again_numbers ho hgt hS hg' name hk
  rw [valuesNamed_of_mem (h.sources ho S hS).wf (hone S hS) hmdS, hv', ← hv] at hnum'
  rw [countersNamed, ← hnum]
  exact hnum'.symm

theorem WholeProgram.stable (h : WholeProgram m T) {name k : String} (hk : k ∈ MetaData.counterKeys)
    (hret : m.Returns T)
    (hag : Agrees (numbersOf (T.valueNamed name k)) (m.countersNamed m.getAllManagedGraphNames name k)) :
    m.CountersStable name k := by
  obtain ⟨total, htotal, hkeep⟩ := hag.stable
  have hvalue : ∀ order g, m.Order order → m.MergesTo order g → g.Target ∧
      numbersOf (g.valueNamed name k) = total ∧ ((g.valueNamed name k).isSome = true ↔
        (T.valueNamed name k).isSome = true ∨ m.countersNamed m.getAllManagedGraphNames name k ≠ []) := by
    intro order g ho hg
    have hperm : (m.countersNamed order name k).Perm (m.countersNamed m.getAllManagedGraphNames name k) :=
      ((others_perm ho).flatMap_right _).map _
    obtain ⟨hgt, hnum, hsome⟩ := mergeAll_numbers h.target (h.sources ho) name hk
      ((h.mergesTo_iff_mergeAll ho g).mp hg)
    refine ⟨hgt, by rw [hnum]; exact htotal _ hperm, ?_⟩
    have hnil : (m.others order).flatMap (fun S => S.valuesNamed name k) = [] ↔
        m.countersNamed m.getAllManagedGraphNames name k = [] := by
      rw [← List.map_eq_nil_iff (f := MetaData.numbers)]
      exact ⟨fun he => List.Perm.nil_eq (he ▸ hperm) |>.symm, fun he => List.Perm.eq_nil (he ▸ hperm)⟩
    rw [hsome, ne_eq, hnil]
  have ho₀ : m.Order m.getAllManagedGraphNames := List.Perm.refl _
  obtain ⟨g₀, hg₀⟩ := (h.returns_iff ho₀).mpr (hret _ ho₀).1
  obtain ⟨ht₀, hn₀, hs₀⟩ := hvalue _ g₀ ho₀ hg₀
  refine ⟨g₀.valueNamed name k, fun order ho => ?_⟩
  obtain ⟨g, hg⟩ := (h.returns_iff ho).mpr (hret order ho).1
  obtain ⟨hgt, hn, hs⟩ := hvalue order g ho hg
  refine ⟨g, hg, value_eq_of_numbers hk (valueNamed_key hgt) (valueNamed_key ht₀) (hs.trans hs₀.symm)
    (hn.trans hn₀.symm), fun S hS => ?_⟩
  obtain ⟨g', hg'⟩ := (h.again_iff ho hg hS).mpr ((hret order ho).2 S hS)
  obtain ⟨hgt', hn', hs'⟩ := h.again_numbers ho hgt hS hg' name hk
  -- the values of `S` are among those that no longer change the total
  have hmem : ∀ v ∈ (S.valuesNamed name k).map MetaData.numbers,
      v ∈ m.countersNamed m.getAllManagedGraphNames name k := by
    intro v hv
    obtain ⟨md, hmd, rfl⟩ := List.mem_map.mp hv
    exact List.mem_map_of_mem (List.mem_flatMap.mpr ⟨S, (others_perm ho).mem_iff.mp hS, hmd⟩)
  refine ⟨g', hg', value_eq_of_numbers hk (valueNamed_key hgt') (valueNamed_key ht₀) ?_ ?_⟩
  · rw [hs', hs, hs₀]
    refine ⟨fun hor => hor.elim id (fun hne => .inr ?_), .inl⟩
    obtain ⟨md, hmd⟩ := List.exists_mem_of_ne_nil _ hne
    exact List.ne_nil_of_mem (hmem _ (List.mem_map_of_mem hmd))
  · rw [hn', hn, hn₀]
    exact foldl_stable fun v hv => hkeep v (hmem v hv)

end

/-- A counter is independent of the order, and repeating a graph does not change it, iff all merges
return and the values of the function agree. -/
theorem countersStable_iff {m : MCGManager} {T : Callgraph} (h : WholeProgram m T) {name key : String}
    (hkey : key ∈ MetaData.counterKeys)
    (hone : ∀ S ∈ m.others m.getAllManagedGraphNames, (S.getNodesNamed name).length ≤ 1) :
    m.CountersStable name key ↔ m.Returns T ∧
      Agrees (numbersOf (T.valueNamed name key)) (m.countersNamed m.getAllManagedGraphNames name key) := by
  refine ⟨fun hst => ⟨?_, h.agrees hkey hone hst⟩, fun hc => h.stable hkey hc.1 hc.2⟩
  obtain ⟨value, hall⟩ := hst
  intro order ho
  obtain ⟨g, hg, -, hagain⟩ := hall order ho
  refine ⟨(h.returns_iff ho).mp ⟨g, hg⟩, fun S hS => ?_⟩
  obtain ⟨g', hg', -⟩ := hagain S hS
  exact (h.again_iff ho hg hS).mp ⟨g', hg'⟩

/-! ## A function in three translation units -/

/-- A unit that defines `f` with `n` statistics variables. -/
def unitWith (n : Int32) : Callgraph :=
  (Callgraph.empty.insertNode "f" none false true).setNodeMeta 0 "codeStatistics" (.codeStatistics n)

theorem unitWith_wf (n : Int32) : (unitWith n).Wf :=
  (Wf.empty.insertNode "f" none false true (by decide)).setNodeMeta _ _ _

theorem unit_wholeProgram (a b : Int32) (ha : (unitWith a).Source) (hb : (unitWith b).Source) :
    WholeProgram (withTwo (unitWith 1) (unitWith a) (unitWith b)) (unitWith 1) :=
  withTwo_wholeProgram ⟨unitWith_wf 1, by decide⟩ ha hb

theorem countersStable_units :
    (withTwo (unitWith 1) (unitWith 1) (unitWith 1)).CountersStable "f" "codeStatistics" := by
  have hsrc : (unitWith 1).Source := ⟨unitWith_wf 1, by decide, by decide, by decide⟩
  have hl : (withTwo (unitWith 1) (unitWith 1) (unitWith 1)).others
      (withTwo (unitWith 1) (unitWith 1) (unitWith 1)).getAllManagedGraphNames = [unitWith 1, unitWith 1] := rfl
  have hS : ∀ {order}, (withTwo (unitWith 1) (unitWith 1) (unitWith 1)).Order order →
      ∀ S ∈ (withTwo (unitWith 1) (unitWith 1) (unitWith 1)).others order, S = unitWith 1 := by
    intro order ho S hS
    have hmem := (others_perm ho).mem_iff.mp hS
    rw [hl, List.mem_cons, List.mem_singleton, or_self] at hmem
    exact hmem
  have hplain : ∀ e ∈ UMap.toPairs (unitWith 1).edges, UMap.toPairs e.2 = [] := by decide
  refine (countersStable_iff (unit_wholeProgram 1 1 hsrc hsrc) (by decide) (by decide)).mpr ⟨fun order ho => ?_, ?_⟩
  · refine ⟨MergeableAlong.of_plain fun S hm => hS ho S hm ▸ hplain, fun S hm => ?_⟩
    refine MergeableAlong.of_plain fun S' hm' => ?_
    rcases List.mem_append.mp hm' with hm' | hm'
    · exact hS ho S' hm' ▸ hplain
    · rw [List.mem_singleton.mp hm', hS ho S hm]
      exact hplain
  · exact .inr ⟨.single 1, by decide, .inl (by decide)⟩

/-- The active graph has 1, the others have 1 and 2: the total is 3 or 4, depending on the order. -/
theorem counters_order_dependent :
    WholeProgram (withTwo (unitWith 1) (unitWith 1) (unitWith 2)) (unitWith 1) ∧
      ¬ (withTwo (unitWith 1) (unitWith 1) (unitWith 2)).CountersStable "f" "codeStatistics" := by
  refine ⟨unit_wholeProgram 1 2 ⟨unitWith_wf 1, by decide, by decide, by decide⟩
    ⟨unitWith_wf 2, by decide, by decide, by decide⟩, ?_⟩
  rintro ⟨value, hall⟩
  have hrun : ∀ order v, (withTwo (unitWith 1) (unitWith 1) (unitWith 2)).Order order →
      (mergeIntoActiveGraph mergeByName order (withTwo (unitWith 1) (unitWith 1) (unitWith 2))).toOption.bind
        (fun m' => m'.active.bind fun g => g.valueNamed "f" "codeStatistics") = some v → value = some v := by
    intro order v ho hv
    obtain ⟨g, ⟨m', hm', hact⟩, hval, -⟩ := hall order ho
    rw [hm'] at hv
    simp only [Except.toOption, Option.bind_some, hact] at hv
    rw [← hval, hv]
  have h₁ := hrun ["a", "b", "whole"] (.codeStatistics 3)
    (by change List.Perm _ ["b", "a", "whole"]; decide) (by decide)
  have h₂ := hrun ["b", "a", "whole"] (.codeStatistics 4) (List.Perm.refl _) (by decide)
  rw [h₁] at h₂
  exact absurd h₂ (by decide)

end MCGManager
end MetaCG
