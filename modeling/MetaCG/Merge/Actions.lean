import MetaCG.Graph.History
import MetaCG.Merge.Structure

/-! When `merge` misses a merge action.

`merge` asserts that metadata it finds at its place got there by an action of the node it asks the
recorder about. For node metadata that holds. For edge metadata it does not: an entry that the target
edge lacks is stored under the base key, whatever its own key is, and the source node that is asked is
the caller, although it may be the callee whose name was met before. -/
namespace MetaCG
open Foundations
set_option autoImplicit false
set_option maxHeartbeats 250000
set_option maxRecDepth 120000

namespace Callgraph

/-! ## The entries of the source in iteration order -/

/-- An entry of edge metadata with the names of the ends of its edge. -/
abbrev NamedEntry := (String × String) × SourceEntry

def endNames (g : Callgraph) (ids : ℕ × ℕ) : String × String := ((g.nameOf ids.1).getD "", (g.nameOf ids.2).getD "")

def namedEntriesOf (g : Callgraph) (e : SourceEdge) : List NamedEntry := (entriesOf e).map fun x => (g.endNames e.1, x)

def namedEntries (g : Callgraph) : List NamedEntry := (UMap.toPairs g.edges).flatMap g.namedEntriesOf

/-! ## The edge loop as a loop over entries -/

/-- The metadata of the target edges by the names of their ends. -/
abbrev Cells := String × String → NamedMetadata

def absorbNamed (r : MergeRecorder) (F : Cells) (i : NamedEntry) : Except Exn Cells :=
  (fun fields => Function.update F i.1 fields) <$> absorbEdgeEntry r (F i.1) i.2

theorem absorbNamed_loop (r : MergeRecorder) (cell : String × String) (es : List SourceEntry) (F : Cells) :
    (es.map fun x => (cell, x)).foldlM (absorbNamed r) F =
      (fun fields => Function.update F cell fields) <$> es.foldlM (absorbEdgeEntry r) (F cell) := by
  induction es generalizing F with
  | nil => exact congrArg Except.ok (Function.update_eq_self cell F).symm
  | cons x es ih =>
    rw [List.map_cons, List.foldlM_cons, List.foldlM_cons, absorbNamed]
    cases hx : absorbEdgeEntry r (F cell) x with
    | error e => rfl
    | ok fields =>
      change List.foldlM (absorbNamed r) (Function.update F cell fields) _ = _ <$> List.foldlM (absorbEdgeEntry r) fields es
      rw [ih, Function.update_self]
      simp only [Function.update_idem]

section Simulation
variable {T S g₀ : Callgraph} {r : MergeRecorder}

/-- The metadata of `g` on the edges between first nodes, by name. -/
def CellsOf (g₀ g : Callgraph) (F : Cells) : Prop :=
  ∀ n₁ n₂ a b, g₀.firstNamed n₁ = some a → g₀.firstNamed n₂ = some b → g.edgeMeta (a, b) = F (n₁, n₂)

theorem firstNamed_inj (hg : g₀.Wf) {n n' : String} {a : ℕ} (h : g₀.firstNamed n = some a) (h' : g₀.firstNamed n' = some a) :
    n = n' := by
  obtain ⟨m, hm, hname⟩ := hg.slot_firstNamed h
  obtain ⟨m', hm', hname'⟩ := hg.slot_firstNamed h'
  rw [hm] at hm'
  cases hm'
  exact hname.symm.trans hname'

/-- A source edge leads to the first nodes of the names of its ends. -/
theorem NodesMerged.edge_first (hS : S.Wf) (h : NodesMerged T S.liveNodes g₀ r) {e : SourceEdge}
    (he : e ∈ UMap.toPairs S.edges) : ∃ a b, edgeTarget r e = (a, b) ∧
      g₀.firstNamed (S.endNames e.1).1 = some a ∧ g₀.firstNamed (S.endNames e.1).2 = some b := by
  obtain ⟨x, hx, y, hy, hidx, hidy⟩ := hS.edge_nodes he
  obtain ⟨a, n, hla, ha, -⟩ := h.mapped_first hx
  obtain ⟨b, m, hlb, hb, -⟩ := h.mapped_first hy
  refine ⟨a, b, ?_, ?_, ?_⟩
  · rw [edgeTarget, ← hidx, ← hidy, UMap.getD, UMap.getD, hla, hlb]
    rfl
  · rw [endNames, ← hidx, nameOf_of_mem hS hx]
    exact ha
  · rw [endNames, ← hidy, nameOf_of_mem hS hy]
    exact hb

theorem NodesMerged.mergeEdge_named (hS : S.Wf) (h : NodesMerged T S.liveNodes g₀ r) {e : SourceEdge}
    (he : e ∈ UMap.toPairs S.edges) {g : Callgraph} (hsame : SameNodes g₀ g) {F : Cells} (hF : CellsOf g₀ g F) :
    match (S.namedEntriesOf e).foldlM (absorbNamed r) F with
    | .ok F' => ∃ g', mergeEdge r g e = .ok g' ∧ SameNodes g₀ g' ∧ CellsOf g₀ g' F'
    | .error x => ∃ g', mergeEdge r g e = .error (x, g') := by
  obtain ⟨a, b, hab, ha, hb⟩ := h.edge_first hS he
  have hspec := mergeEdge_spec ((h.endsMapped hS e he).of_same hsame)
  rw [namedEntriesOf, absorbNamed_loop, ← hF _ _ a b ha hb, ← hab]
  unfold absorbEdge at hspec
  cases hf : (entriesOf e).foldlM (absorbEdgeEntry r) (g.edgeMeta (edgeTarget r e)) with
  | error x =>
    rw [hf] at hspec
    exact hspec
  | ok fields =>
    rw [hf] at hspec
    obtain ⟨g', hg', hsame', -, hmeta⟩ := hspec
    refine ⟨g', hg', hsame.trans hsame', fun n₁ n₂ a' b' ha' hb' => ?_⟩
    rw [hmeta, hab]
    by_cases hcell : (n₁, n₂) = S.endNames e.1
    · have h₁ : n₁ = (S.endNames e.1).1 := congrArg Prod.fst hcell
      have h₂ : n₂ = (S.endNames e.1).2 := congrArg Prod.snd hcell
      rw [h₁, ha] at ha'
      rw [h₂, hb] at hb'
      cases ha'
      cases hb'
      rw [if_pos rfl, hcell]
      change fields = Function.update F (S.endNames e.1) fields (S.endNames e.1)
      rw [Function.update_self]
    · have hne : (a', b') ≠ (a, b) := by
        intro heq
        obtain ⟨rfl, rfl⟩ := Prod.mk.inj heq
        exact hcell (Prod.ext (firstNamed_inj h.wf ha' ha) (firstNamed_inj h.wf hb' hb))
      rw [if_neg hne]
      change g.edgeMeta (a', b') = Function.update F (S.endNames e.1) fields (n₁, n₂)
      rw [Function.update_of_ne hcell]
      exact hF n₁ n₂ a' b' ha' hb'

theorem NodesMerged.mergeEdges_named (hS : S.Wf) (h : NodesMerged T S.liveNodes g₀ r) (l : List SourceEdge)
    (hl : ∀ e ∈ l, e ∈ UMap.toPairs S.edges) {g : Callgraph} (hsame : SameNodes g₀ g) {F : Cells} (hF : CellsOf g₀ g F) :
    match (l.flatMap S.namedEntriesOf).foldlM (absorbNamed r) F with
    | .ok F' => ∃ g', l.foldlM (mergeEdge r) g = .ok g' ∧ SameNodes g₀ g' ∧ CellsOf g₀ g' F'
    | .error x => ∃ g', l.foldlM (mergeEdge r) g = .error (x, g') := by
  induction l generalizing g F with
  | nil => exact ⟨g, rfl, hsame, hF⟩
  | cons e l ih =>
    have he := h.mergeEdge_named hS (hl e (List.mem_cons_self ..)) hsame hF
    rw [List.flatMap_cons, List.foldlM_append, List.foldlM_cons]
    cases hrun : (S.namedEntriesOf e).foldlM (absorbNamed r) F with
    | error x =>
      rw [hrun] at he
      obtain ⟨g', hg'⟩ := he
      rw [hg']
      exact ⟨g', rfl⟩
    | ok F' =>
      rw [hrun] at he
      obtain ⟨g', hg', hsame', hF'⟩ := he
      rw [hg']
      exact ih (fun e' he' => hl e' (List.mem_cons_of_mem e he')) hsame' hF'

end Simulation

/-! ## One entry -/

section Entry
variable {r : MergeRecorder} {fields : NamedMetadata} {x : SourceEntry}

/-- The assertion on the action fails iff there is an object and no action. -/
theorem absorbEdgeEntry_edgeText_iff : absorbEdgeEntry r fields x = .error (.assertion edgeText) ↔
    (kindsOf fields x.2.1).isSome = true ∧ r.getAction x.1 = none := by
  unfold absorbEdgeEntry kindsOf
  have hop : ∀ {e}, MetaData.OpError e → e ≠ .assertion edgeText := by
    rintro e (rfl | rfl | rfl | ⟨md, rfl⟩)
    · decide
    · decide
    · decide
    · cases md <;> simp [MetaData.mismatchText, edgeText]
  cases hl : fields.lookup x.2.1 with
  | none =>
    refine iff_of_false (fun h => ?_) (by simp)
    cases hc : x.2.2.cloneMapped r.mapping with
    | error e =>
      rw [hc] at h
      exact hop (x.2.2.cloneMapped_opErrors r.mapping e hc) (Except.error.inj h)
    | ok c => rw [hc] at h; cases h
  | some own =>
    cases ha : r.getAction x.1 with
    | none => exact iff_of_true rfl ⟨rfl, rfl⟩
    | some act =>
      refine iff_of_false (fun h => ?_) (by simp)
      simp only [mergeUnder] at h
      cases hm : own.merge x.2.2 (some act) r.mapping with
      | error e =>
        rw [hm] at h
        exact hop (own.merge_opErrors x.2.2 (some act) r.mapping e hm) (Except.error.inj h)
      | ok m => rw [hm] at h; cases h

/-- Without an object the clone has to be mapped, with one and an action the two have to merge. -/
theorem absorbEdgeEntry_ok_cases : (∃ fields', absorbEdgeEntry r fields x = .ok fields') ↔
    (kindsOf fields x.2.1 = none ∧ Mapped r.mapping x.2.2.refs) ∨
      ∃ kind, kindsOf fields x.2.1 = some kind ∧ (r.getAction x.1).isSome = true ∧ kind = x.2.2.getKey ∧
        (kind = "overrideMD" → Mapped r.mapping x.2.2.refs) := by
  unfold absorbEdgeEntry kindsOf
  cases hl : fields.lookup x.2.1 with
  | none =>
    rw [← x.2.2.cloneMapped_ok_iff]
    constructor
    · rintro ⟨f, hf⟩
      obtain ⟨c, hc, -⟩ := MetaData.map_eq_ok hf
      exact .inl ⟨rfl, c, hc⟩
    · rintro (⟨-, c, hc⟩ | ⟨kind, hk, -⟩)
      · exact ⟨_, by rw [hc]; rfl⟩
      · cases hk
  | some own =>
    cases ha : r.getAction x.1 with
    | none =>
      refine iff_of_false ?_ ?_
      · rintro ⟨f, hf⟩
        cases hf
      · rintro (⟨hk, -⟩ | ⟨kind, -, hact, -⟩)
        · cases hk
        · cases hact
    | some act =>
      have hmerge := own.merge_ok_iff x.2.2 act r.mapping
      simp only [mergeUnder]
      constructor
      · rintro ⟨f, hf⟩
        obtain ⟨m, hm, -⟩ := MetaData.map_eq_ok hf
        obtain ⟨hkey, hrefs⟩ := hmerge.mp ⟨m, hm⟩
        exact .inr ⟨own.getKey, rfl, rfl, hkey, fun h => hrefs (hkey ▸ h)⟩
      · rintro (⟨hk, -⟩ | ⟨kind, hk, -, hkey, hrefs⟩)
        · cases hk
        · have hown : own.getKey = kind := Option.some.inj hk
          obtain ⟨m, hm⟩ := hmerge.mpr ⟨hown.trans hkey, fun h => hrefs (hkey.trans h)⟩
          exact ⟨_, by rw [hm]; rfl⟩

end Entry

/-! ## The first entry that is not absorbed -/

/-- The source node of the entry has a merge action: its name is known to the target, or an earlier
source node has it. -/
def licensed (T S : Callgraph) (i : NamedEntry) : Bool :=
  T.hasName i.1.1 || decide (S.firstNamed i.1.1 ≠ some i.2.1)

/-- The metadata stores an id that is no node of the source. -/
def Dangling (S : Callgraph) (md : MetaData) : Prop := ∃ id ∈ md.refs, S.hasNode id = false

/-- The kinds on a target edge once the entries `pre` were absorbed. -/
def kindsBefore (T : Callgraph) (pre : List NamedEntry) (cell : String × String) : Kinds :=
  (kindsOf (T.metaNamed cell.1 cell.2)).kindAt ((pre.filter fun j => decide (j.1 = cell)).map fun j => kindOf j.2)

/-- The entry lies under the base key, its source node has no action, and an earlier entry went to
the same target edge. -/
def Unlicensed (T S : Callgraph) (pre : List NamedEntry) (i : NamedEntry) : Prop :=
  T.licensed S i = false ∧ i.2.2.1 = MetaData.baseKey ∧ ∃ j ∈ pre, j.1 = i.1

/-- `merge` ends at this entry for another reason: it stores a dangling id, or it meets metadata of
another kind. -/
def Stopped (T S : Callgraph) (pre : List NamedEntry) (i : NamedEntry) : Prop :=
  match T.kindsBefore pre i.1 i.2.2.1 with
  | none => S.Dangling i.2.2.2
  | some kind => T.licensed S i = true ∧ (kind = i.2.2.2.getKey → kind = "overrideMD" ∧ S.Dangling i.2.2.2)

/-- No entry is unlicensed when `merge` gets to it. -/
def LicensedUntilStop (T S : Callgraph) : Prop :=
  ∀ pre i post, S.namedEntries = pre ++ i :: post → T.Unlicensed S pre i →
    ∃ pre' j post', pre = pre' ++ j :: post' ∧ T.Stopped S pre' j

end Callgraph

namespace Kinds

/-- On a target edge without metadata, whatever is found lies under the base key. -/
theorem kindAt_empty_isSome_iff (pre : List KindEntry) (key : String) :
    (kindAt (fun _ => none) pre key).isSome = true ↔ key = MetaData.baseKey ∧ pre ≠ [] := by
  unfold kindAt
  split_ifs with hkey
  · refine Iff.trans ?_ (and_iff_right hkey).symm
    unfold baseKind
    by_cases hother : ∃ x ∈ pre, x.1 ≠ MetaData.baseKey
    · obtain ⟨x, hx, hne⟩ := hother
      have hmem : x ∈ pre.filter (overwrites fun _ => none) := List.mem_filter.mpr ⟨hx, by simp [overwrites, hne]⟩
      obtain ⟨y, hy⟩ := Option.isSome_iff_exists.mp (List.getLast?_isSome.mpr (List.ne_nil_of_mem hmem))
      rw [hy]
      exact iff_of_true rfl (List.ne_nil_of_mem hx)
    · push Not at hother
      cases pre with
      | nil => simp
      | cons x pre =>
        have hx := hother x (List.mem_cons_self ..)
        rw [List.filter_eq_nil_iff.mpr (fun y hy => by simp [overwrites, hother y hy])]
        simp [hx]
  · simp [hkey]

end Kinds

namespace Callgraph

section Order
variable {T S g : Callgraph} {r : MergeRecorder}

theorem kindsBefore_new {pre : List NamedEntry} {cell : String × String} (hnew : T.hasName cell.1 = false) (key : String) :
    (T.kindsBefore pre cell key).isSome = true ↔ key = MetaData.baseKey ∧ ∃ j ∈ pre, j.1 = cell := by
  have hempty : T.metaNamed cell.1 cell.2 = ∅ := by
    have hnone : T.firstNamed cell.1 = none := by simpa [hasName] using hnew
    simp only [metaNamed, hnone]
  have hkinds : kindsOf (∅ : NamedMetadata) = fun _ => none := rfl
  rw [kindsBefore, hempty, hkinds, Kinds.kindAt_empty_isSome_iff]
  refine and_congr_right fun _ => ?_
  rw [ne_eq, List.map_eq_nil_iff, List.filter_eq_nil_iff]
  simp only [decide_eq_true_eq, not_forall, not_not, exists_prop]

theorem kindsBefore_concat (pre : List NamedEntry) (i : NamedEntry) (cell : String × String) :
    T.kindsBefore (pre ++ [i]) cell =
      if i.1 = cell then (T.kindsBefore pre cell).kindAt [kindOf i.2] else T.kindsBefore pre cell := by
  unfold kindsBefore
  rw [List.filter_append, List.map_append]
  split_ifs with h
  · rw [List.filter_cons_of_pos (by simp [h]), Kinds.kindAt_append]
    rfl
  · rw [List.filter_cons_of_neg (by simp [h]), List.filter_nil, List.map_nil, List.append_nil]

/-- Where the loop over the entries has come, the kinds are those of `kindsBefore`. -/
theorem kindsOf_absorbed {l : List NamedEntry} {F : Cells}
    (h : l.foldlM (absorbNamed r) (fun cell => T.metaNamed cell.1 cell.2) = .ok F) (cell : String × String) :
    kindsOf (F cell) = T.kindsBefore l cell := by
  refine foldlM_ok_inv (J := fun pre F => ∀ cell, kindsOf (F cell) = T.kindsBefore pre cell)
    (fun cell => (Kinds.kindAt_nil _).symm) ?_ h cell
  intro pre i F F' _ hF hstep cell
  obtain ⟨fields, hf, rfl⟩ := MetaData.map_eq_ok hstep
  rw [kindsBefore_concat]
  split_ifs with hcell
  · subst hcell
    rw [Function.update_self, absorbEdgeEntry_kinds hf, hF]
  · rw [Function.update_of_ne (Ne.symm hcell)]
    exact hF cell

theorem NodesMerged.action_named (hS : S.Wf) (h : NodesMerged T S.liveNodes g r) {i : NamedEntry} (hi : i ∈ S.namedEntries) :
    (r.getAction i.2.1).isSome = T.licensed S i := by
  obtain ⟨e, he, hie⟩ := List.mem_flatMap.mp hi
  obtain ⟨x, hx, rfl⟩ := List.mem_map.mp hie
  obtain ⟨y, -, rfl⟩ := List.mem_map.mp hx
  obtain ⟨a, ha, -, -, hida, -⟩ := hS.edge_nodes he
  unfold licensed endNames
  rw [← hida, nameOf_of_mem hS ha]
  exact h.action_iff hS ha

theorem NodesMerged.mapped_iff_not_dangling (hS : S.Wf) (h : NodesMerged T S.liveNodes g r) (md : MetaData) :
    Mapped r.mapping md.refs ↔ ¬ S.Dangling md := by
  constructor
  · rintro hmap ⟨id, hid, hdead⟩
    obtain ⟨t, ht⟩ := hmap id hid
    obtain ⟨s, hs, rfl⟩ := h.mapped_dom id t ht
    rw [hasNode_of_slot (hS.slot_of_mem hs)] at hdead
    cases hdead
  · intro hdang
    refine h.mapped_refs hS fun id hid => ?_
    by_contra hdead
    exact hdang ⟨id, hid, Bool.not_eq_true _ ▸ hdead⟩

/-- An entry that is reached is absorbed, or it is found without an action, or it stops the merge. -/
theorem NodesMerged.absorb_cases (hS : S.Wf) (h : NodesMerged T S.liveNodes g r) {pre : List NamedEntry} {i : NamedEntry}
    (hi : i ∈ S.namedEntries) {F : Cells} (hF : kindsOf (F i.1) = T.kindsBefore pre i.1) :
    (absorbEdgeEntry r (F i.1) i.2 = .error (.assertion edgeText) ↔ T.Unlicensed S pre i) ∧
    ((∃ fields, absorbEdgeEntry r (F i.1) i.2 = .ok fields) ↔ ¬ T.Unlicensed S pre i ∧ ¬ T.Stopped S pre i) := by
  have haction := h.action_named hS hi
  have hnone : r.getAction i.2.1 = none ↔ T.licensed S i = false := by
    rw [← Option.not_isSome_iff_eq_none, haction, Bool.not_eq_true]
  have hunlicensed : T.Unlicensed S pre i ↔ (T.kindsBefore pre i.1 i.2.2.1).isSome = true ∧ T.licensed S i = false := by
    constructor
    · rintro ⟨hno, hbase⟩
      have hnew : T.hasName i.1.1 = false := (Bool.or_eq_false_iff.mp hno).1
      exact ⟨(kindsBefore_new hnew _).mpr hbase, hno⟩
    · rintro ⟨hsome, hno⟩
      have hnew : T.hasName i.1.1 = false := (Bool.or_eq_false_iff.mp hno).1
      exact ⟨hno, (kindsBefore_new hnew _).mp hsome⟩
  refine ⟨by rw [absorbEdgeEntry_edgeText_iff, hF, hunlicensed, hnone], ?_⟩
  rw [absorbEdgeEntry_ok_cases, hF, hunlicensed, haction, h.mapped_iff_not_dangling hS, Stopped]
  cases hk : T.kindsBefore pre i.1 i.2.2.1 with
  | none => simp
  | some kind =>
    cases T.licensed S i with
    | false => simp
    | true =>
      by_cases hkey : kind = i.2.2.2.getKey
      · simp [hkey]
      · simp [hkey]

theorem NodesMerged.edgeText_iff (hS : S.Wf) (h : NodesMerged T S.liveNodes g r) :
    S.namedEntries.foldlM (absorbNamed r) (fun cell => T.metaNamed cell.1 cell.2) = .error (.assertion edgeText) ↔
      ¬ T.LicensedUntilStop S := by
  have hmem : ∀ {pre i post}, S.namedEntries = pre ++ i :: post → i ∈ S.namedEntries := fun hl => by rw [hl]; simp
  constructor
  · intro hrun hlic
    obtain ⟨pre, i, post, F, hl, hpre, hi⟩ := foldlM_error_iff.mp hrun
    have hfail : absorbEdgeEntry r (F i.1) i.2 = .error (.assertion edgeText) := by
      unfold absorbNamed at hi
      cases ha : absorbEdgeEntry r (F i.1) i.2 with
      | error e => rw [ha] at hi; exact congrArg Except.error (Except.error.inj hi)
      | ok f => rw [ha] at hi; cases hi
    obtain ⟨pre', j, post', rfl, hstop⟩ := hlic pre i post hl
      ((h.absorb_cases hS (hmem hl) (kindsOf_absorbed hpre i.1)).1.mp hfail)
    -- the loop has passed the entry that stops it
    rw [List.foldlM_append] at hpre
    obtain ⟨F', hF', hrest⟩ := bind_eq_ok.mp hpre
    rw [List.foldlM_cons] at hrest
    obtain ⟨F'', hF'', -⟩ := bind_eq_ok.mp hrest
    obtain ⟨fields, hfields, -⟩ := MetaData.map_eq_ok hF''
    have hj : j ∈ S.namedEntries := by rw [hl]; simp
    exact ((h.absorb_cases hS hj (kindsOf_absorbed hF' j.1)).2.mp ⟨fields, hfields⟩).2 hstop
  · intro hno
    unfold LicensedUntilStop at hno
    push Not at hno
    obtain ⟨pre, i, post, hl, hun, hearlier⟩ := hno
    rw [hl, List.foldlM_append]
    cases hpre : pre.foldlM (absorbNamed r) (fun cell => T.metaNamed cell.1 cell.2) with
    | ok F =>
      have hfail := (h.absorb_cases hS (hmem hl) (kindsOf_absorbed hpre i.1)).1.mpr hun
      change List.foldlM (absorbNamed r) F (i :: post) = _
      rw [List.foldlM_cons, absorbNamed, hfail]
      rfl
    | error e =>
      obtain ⟨pre', j, post', F', rfl, hpre', hj⟩ := foldlM_error_iff.mp hpre
      have hjmem : j ∈ S.namedEntries := by rw [hl]; simp
      obtain ⟨htext, hok⟩ := h.absorb_cases hS hjmem (kindsOf_absorbed hpre' j.1)
      cases ha : absorbEdgeEntry r (F' j.1) j.2 with
      | ok f =>
        rw [absorbNamed, ha] at hj
        cases hj
      | error e' =>
        rw [absorbNamed, ha] at hj
        cases hj
        by_cases hunj : T.Unlicensed S pre' j
        · rw [htext.mpr hunj] at ha
          cases ha
          rfl
        · have hstop : T.Stopped S pre' j := by
            by_contra hns
            obtain ⟨f, hf⟩ := hok.mpr ⟨hunj, hns⟩
            rw [ha] at hf
            cases hf
          exact absurd hstop (hearlier pre' j post' rfl)

theorem absorbNamed_errors (r : MergeRecorder) (F : Cells) (i : NamedEntry) :
    ErrorsIn (fun e => e = .assertion edgeText ∨ MetaData.OpError e) (absorbNamed r F i) := by
  refine .map ?_ _
  unfold absorbEdgeEntry
  cases (F i.1).lookup i.2.2.1 with
  | none => exact .map ((i.2.2.2.cloneMapped_opErrors r.mapping).mono fun _ => .inr) _
  | some own =>
    refine .map ?_ _
    unfold mergeUnder
    cases r.getAction i.2.1 with
    | none => exact .error (.inl rfl)
    | some act => exact (own.merge_opErrors i.2.2.2 (some act) r.mapping).mono fun _ => .inr

/-! ## The metadata loops ask for an action only where there is one -/

theorem NodesMerged.nodeLoop_errors (hS : S.Wf) (hkey : S.MetaKeyed) (hlive : S.NoErased)
    (h : NodesMerged T S.liveNodes g r) {g₁ : Callgraph} (hsame : SameNodes g g₁) :
    ErrorsIn (fun e => MetaData.OpError e.1) (S.nodes.foldlM (mergeNodeMetaData r) g₁) := by
  have hmapped : ∀ s ∈ S.liveNodes, ∃ t, r.mapping.lookup s.id = some t ∧ g₁.hasNode t = true := by
    intro s hs
    obtain ⟨t, n, ht, -, hn, -⟩ := h.mapped_first hs
    exact ⟨t, ht, by rw [hsame.hasNode]; exact hasNode_of_slot hn⟩
  have hplaced : ∀ x ∈ S.liveNodes.flatMap nodeEntriesOf, EntryPlaced r g₁ x := by
    intro x hx
    obtain ⟨s, hs, hxs⟩ := List.mem_flatMap.mp hx
    obtain ⟨e, he, rfl⟩ := List.mem_map.mp hxs
    exact ⟨hmapped s hs, hkey.node s hs e he⟩
  have hloop := mergeNodeMetaData_loop hplaced hmapped
  rw [← hlive.nodes_eq] at hloop
  rw [hloop]
  intro e he
  obtain ⟨pre, x, post, g₂, hl, hpre, hx⟩ := foldlM_error_iff.mp he
  have hscat := mergeNodeEntries_scatters (l := pre) fun y hy => hplaced y (by rw [hl]; exact List.mem_append_left _ hy)
  obtain ⟨-, hcell⟩ := scatter_ok hscat (SameButMeta.refl g₁) hpre
  -- what is found at the entry's place was in `T`, or an earlier entry brought it
  have hvalues : valuesAt r S.liveNodes (nodeTarget r x).1 (nodeTarget r x).2 =
      itemsOf (nodeTarget r) pre (nodeTarget r x) ++ x :: itemsOf (nodeTarget r) post (nodeTarget r x) := by
    rw [← itemsOf_nodeEntries S.liveNodes fun s hs => by
      obtain ⟨t, ht, -⟩ := hmapped s hs
      exact ⟨t, ht⟩]
    rw [hl, itemsOf, List.filter_append, ← itemsOf]
    refine congrArg _ ?_
    rw [← itemsOf, itemsOf_cons, if_pos rfl]
  have hfound : ∀ own, g₂.nodeMeta (nodeTarget r x).1 (nodeTarget r x).2 = some own → (r.getAction x.1).isSome = true := by
    intro own hown
    refine h.values_action hS hvalues ?_
    by_contra hno
    push Not at hno
    have hc := hcell (nodeTarget r x)
    rw [hno.2, hown] at hc
    have hstart : g₁.nodeMeta (nodeTarget r x).1 (nodeTarget r x).2 = none := by
      rw [Callgraph.nodeMeta, hsame.slot, ← Callgraph.nodeMeta, h.nodeMeta]
      exact hno.1
    rw [hstart] at hc
    cases hc
  unfold mergeNodeEntry mergeNodeMetaEntry at hx
  cases hown : g₂.nodeMeta (nodeTarget r x).1 (nodeTarget r x).2 with
  | none =>
    rw [show g₂.nodeMeta (UMap.getD r.mapping x.1 0) x.2.1 = none from hown] at hx
    exact ((x.2.2.cloneMapped_opErrors r.mapping).guard fun _ _ => .ok _) e hx
  | some own =>
    obtain ⟨act, hact⟩ := Option.isSome_iff_exists.mp (hfound own hown)
    rw [show g₂.nodeMeta (UMap.getD r.mapping x.1 0) x.2.1 = some own from hown] at hx
    simp only [hact] at hx
    exact ((own.merge_opErrors x.2.2 (some act) r.mapping).guard fun _ _ => .ok _) e hx

theorem mergeGlobals_errors (r : MergeRecorder) (l : List (String × MetaData)) (g : Callgraph) :
    ErrorsIn (fun e => MetaData.OpError e.1) (l.foldlM (mergeGlobalMetaData r) g) := by
  refine .foldlM (fun g' md _ => ?_) g
  unfold mergeGlobalMetaData
  cases g'.metaFields.lookup md.1 with
  | none => exact (md.2.cloneMapped_opErrors r.mapping).guard fun _ _ => .ok _
  | some own => exact (own.merge_opErrors md.2 none r.mapping).guard fun _ _ => .ok _

end Order

/-! ## The whole merge -/

/-- Neither of the two assertions on the action of a source node fails. -/
def ActionsFound (T S : Callgraph) : Prop :=
  ∀ g, merge mergeByName T S ≠ .error (.assertion edgeText, g) ∧ merge mergeByName T S ≠ .error (.assertion nodeText, g)

theorem opError_ne {e : Exn} (h : MetaData.OpError e) : e ≠ .assertion edgeText ∧ e ≠ .assertion nodeText := by
  rcases h with rfl | rfl | rfl | ⟨md, rfl⟩
  · decide
  · decide
  · decide
  · constructor <;> cases md <;> simp [MetaData.mismatchText, edgeText, nodeText]

/-- `merge` finds the action it asks for iff no unlicensed entry is reached. -/
theorem actionsFound_iff {T S : Callgraph} (hT : T.Wf) (hS : S.Wf) (hlive : S.NoErased) (hkey : S.MetaKeyed) :
    T.ActionsFound S ↔ T.LicensedUntilStop S := by
  obtain ⟨g, r, hnodes, h⟩ := mergeNodes_spec hT hS hlive
  have hmerge : ∀ e, mergeRest r S g = .error e → merge mergeByName T S = .error e := fun e he => by
    simp only [merge, hnodes, he]
  have hedges := h.mergeEdges_named hS (UMap.toPairs S.edges) (fun _ he => he) (SameNodes.refl g)
    (F := fun cell => T.metaNamed cell.1 cell.2) (fun n₁ n₂ a b ha hb => h.edgeMeta_first hT ha hb)
  have htext := h.edgeText_iff hS
  unfold namedEntries at htext
  cases hrun : ((UMap.toPairs S.edges).flatMap S.namedEntriesOf).foldlM (absorbNamed r)
      (fun cell => T.metaNamed cell.1 cell.2) with
  | error e =>
    rw [hrun] at hedges htext
    obtain ⟨g', hg'⟩ := hedges
    have hm : merge mergeByName T S = .error (e, g') := by
      apply hmerge
      unfold mergeRest
      rw [hg']
      rfl
    have hnode : e ≠ .assertion nodeText := by
      rcases ErrorsIn.foldlM (fun F i _ => absorbNamed_errors r F i) _ e hrun with rfl | hop
      · decide
      · exact (opError_ne hop).2
    have hedge : e = .assertion edgeText ↔ ¬ T.LicensedUntilStop S := by
      rw [← htext, Except.error.injEq]
    unfold ActionsFound
    rw [hm, ← not_iff_not, ← hedge]
    constructor
    · intro hno
      by_contra hne
      exact hno fun g'' => ⟨fun heq => hne (by cases heq; rfl), fun heq => hnode (by cases heq; rfl)⟩
    · rintro rfl hall
      exact (hall g').1 rfl
  | ok F =>
    rw [hrun] at hedges htext
    obtain ⟨g₁, hg₁, hsame, -⟩ := hedges
    have hlic : T.LicensedUntilStop S := by
      by_contra hno
      cases htext.mpr hno
    refine iff_of_true (fun g' => ?_) hlic
    have hrest : ErrorsIn (fun e => MetaData.OpError e.1) (mergeRest r S g) := by
      unfold mergeRest
      rw [hg₁]
      exact (h.nodeLoop_errors hS hkey hlive hsame).bind fun g₂ _ =>
        (mergeGlobals_errors r _ g₂).bind fun _ _ => .ok _
    have hop : ∀ {e}, merge mergeByName T S = .error e → MetaData.OpError e.1 := by
      intro e he
      cases hr : mergeRest r S g with
      | error e' =>
        rw [hmerge e' hr] at he
        cases he
        exact hrest e hr
      | ok g₂ =>
        simp only [merge, hnodes, hr] at he
        cases he
    exact ⟨fun he => (opError_ne (hop he)).1 rfl, fun he => (opError_ne (hop he)).2 rfl⟩

/-- `f` calls two functions `g`, and both calls carry metadata as the reader of a file stores it. -/
def callsTwoNamesakes : List Op := [.insert "f" none false true, .insert "g" none false true, .insert "g" none false true,
  .addEdge 0 1, .addEdge 0 2, .addEdgeMetaData MetaData.baseKey (0, 1) (.loopDepth 1),
  .addEdgeMetaData MetaData.baseKey (0, 2) (.loopDepth 1)]

/-- The second call meets the metadata of the first, but `f` was copied and has no action. -/
theorem merge_callsTwoNamesakes : (run 0 []).Wf ∧ (run 1 callsTwoNamesakes).Wf ∧ (run 1 callsTwoNamesakes).NoErased ∧
    (run 1 callsTwoNamesakes).MetaKeyed ∧ ¬ (run 0 []).ActionsFound (run 1 callsTwoNamesakes) := by
  refine ⟨run_wf 0 [], run_wf 1 callsTwoNamesakes, by decide, by decide, fun hfound => ?_⟩
  have hrun : ∃ g, merge mergeByName (run 0 []) (run 1 callsTwoNamesakes) = .error (.assertion edgeText, g) := ⟨_, rfl⟩
  obtain ⟨g, hg⟩ := hrun
  exact (hfound g).1 hg

/-- One call with metadata, merged into a graph that knows neither function. -/
theorem actionsFound_oneCall : (run 0 []).ActionsFound (oneCallWith (.loopDepth 1)) := by
  refine (actionsFound_iff (run_wf 0 []) (oneCallWith_wf _) (by decide) (by decide)).mpr ?_
  rintro pre i post hl ⟨-, -, j, hj, -⟩
  have hlen := congrArg List.length hl
  have hone : (oneCallWith (.loopDepth 1)).namedEntries.length = 1 := by decide
  rw [hone, List.length_append, List.length_cons] at hlen
  have hpos := List.length_pos_of_mem hj
  omega

end Callgraph
end MetaCG
