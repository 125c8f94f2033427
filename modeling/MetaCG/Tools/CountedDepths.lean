import MetaCG.Tools.LoopNests
import MetaCG.Tools.MergeFileUnion

/-! Which loop metadata `mergeFileFormatTwo` counts.

The flag `hasLoopInfo` is set when a function that has been met without body only gets its body.
Until then the loop call depths of all but the first occurrence of a function are passed over. -/
namespace MetaCG.FormatTwo
open Foundations
set_option autoImplicit false
set_option maxHeartbeats 250000
set_option maxRecDepth 120000

/-! ## Places in a list -/

/-- `P` holds at an element of the list and the elements before it. -/
def Along {α : Type} (P : List α → α → Prop) (l : List α) : Prop := ∃ pre a post, l = pre ++ a :: post ∧ P pre a

theorem along_concat {α : Type} {P : List α → α → Prop} {l : List α} {a : α} : Along P (l ++ [a]) ↔ Along P l ∨ P l a := by
  constructor
  · rintro ⟨pre, b, post, hl, hP⟩
    rcases List.eq_nil_or_concat post with rfl | ⟨post, c, rfl⟩
    · obtain ⟨rfl, hb⟩ := List.append_inj' hl rfl
      cases hb
      exact .inr hP
    · rw [List.concat_eq_append, ← List.cons_append, ← List.append_assoc] at hl
      obtain ⟨rfl, -⟩ := List.append_inj' hl rfl
      exact .inl ⟨pre, b, post, rfl, hP⟩
  · rintro (⟨pre, b, post, rfl, hP⟩ | hP)
    · exact ⟨pre, b, post ++ [a], by simp, hP⟩
    · exact ⟨l, a, [], rfl, hP⟩

theorem not_along_nil {α : Type} {P : List α → α → Prop} : ¬ Along P [] := by
  rintro ⟨pre, a, post, h, -⟩
  simp at h

/-! ## The flag -/

/-- The file `cg` has the body of `g`, which the files before it have without body only. -/
def Opens (g : String) (pre : List CG) (cg : CG) : Prop :=
  ∃ v, cg.find g = some v ∧ v.hasBody = true ∧ occurrences pre g ≠ [] ∧ ∀ u ∈ occurrences pre g, u.hasBody = false

/-- The files in which this happens. -/
def Opened (cgs : List CG) : Prop := ∃ g, Along (Opens g) cgs

theorem opened_concat {cgs : List CG} {cg : CG} : Opened (cgs ++ [cg]) ↔ Opened cgs ∨ ∃ g, Opens g cgs cg := by
  unfold Opened
  simp only [along_concat, exists_or]

/-- The flag is set when the loop has merged the function `f` of the file `cg`. -/
def OpenAt (f : String) (pre : List CG) (cg : CG) : Prop := Opened pre ∨ ∃ g ≤ f, Opens g pre cg

/-- The occurrence `v` of `f` is the first one, or it is merged with the flag set. -/
def Counted (cgs : List CG) (f : String) (v : Node) : Prop :=
  Along (fun pre cg => cg.find f = some v ∧ (occurrences pre f = [] ∨ OpenAt f pre cg)) cgs

theorem counted_concat {cgs : List CG} {cg : CG} {f : String} {v : Node} : Counted (cgs ++ [cg]) f v ↔
    Counted cgs f v ∨ (cg.find f = some v ∧ (occurrences cgs f = [] ∨ OpenAt f cgs cg)) := along_concat

theorem Counted.mem_occurrences {cgs : List CG} {f : String} {v : Node} (h : Counted cgs f v) : v ∈ occurrences cgs f := by
  obtain ⟨pre, cg, post, rfl, hv, -⟩ := h
  exact FormatTwo.mem_occurrences.mpr ⟨cg, by simp, hv⟩

/-- The occurrence that gives the loop depth: the first one with a body, or the first one. -/
def leading (l : List Node) : Option Node := (l.find? Node.hasBody).or l.head?

theorem leading_concat {l : List Node} {u v : Node} (h : leading l = some u) :
    leading (l ++ [v]) = some (if v.hasBody = true ∧ ∀ x ∈ l, x.hasBody = false then v else u) := by
  unfold leading at h ⊢
  have hne : l ≠ [] := by
    rintro rfl
    cases h
  rw [List.find?_append, List.head?_append_of_ne_nil l hne]
  cases hfind : l.find? Node.hasBody with
  | some x =>
    rw [hfind] at h
    cases h
    have hu : u.hasBody = true := List.find?_some hfind
    have hno : ¬ (v.hasBody = true ∧ ∀ y ∈ l, y.hasBody = false) := by
      rintro ⟨-, hall⟩
      rw [hall u (List.mem_of_find?_eq_some hfind)] at hu
      cases hu
    rw [if_neg hno]
    rfl
  | none =>
    rw [hfind, Option.none_or] at h
    have hall : ∀ x ∈ l, x.hasBody = false := by simpa using hfind
    rw [Option.none_or, h]
    by_cases hv : v.hasBody = true
    · rw [if_pos ⟨hv, hall⟩, List.find?_cons_of_pos hv]
      rfl
    · rw [if_neg fun hv' => hv hv'.1, List.find?_cons_of_neg hv]
      rfl

/-! ## The entry of a function -/

/-- What has become of the loop metadata of `f`. -/
structure LoopEntry (cgs : List CG) (f : String) (c : Node) : Prop where
  hasBody : c.hasBody = true ↔ ∃ v ∈ occurrences cgs f, v.hasBody = true
  loopDepth : ∃ v, leading (occurrences cgs f) = some v ∧ c.info.loopDepth = v.info.loopDepth
  loopCallDepth : ∃ m, c.info.loopCallDepth = some m ∧
    Records .empty (fun g d => ∃ v, Counted cgs f v ∧ v.Lists g d) m
  globalLoopDepth : ∃ v, (occurrences cgs f).head? = some v ∧ c.info.globalLoopDepth = v.info.globalLoopDepth

/-- The state after the files `cgs`. -/
structure LoopState (cgs : List CG) (hasLoopInfo : Bool) (wholeCG : CG) : Prop where
  flag : hasLoopInfo = true ↔ Opened cgs
  absent : ∀ f, wholeCG.find f = none → occurrences cgs f = []
  entry : ∀ f c, wholeCG.find f = some c → LoopEntry cgs f c

theorem LoopState.initial : LoopState [] false .empty where
  flag := by
    simp only [Bool.false_eq_true, false_iff]
    rintro ⟨g, hg⟩
    exact not_along_nil hg
  absent := fun f _ => rfl
  entry := fun f c h => by cases h

theorem LoopEntry.occurs {cgs : List CG} {f : String} {c : Node} (h : LoopEntry cgs f c) : occurrences cgs f ≠ [] := by
  obtain ⟨v, hv, -⟩ := h.globalLoopDepth
  intro hnil
  rw [hnil] at hv
  cases hv

/-- The entry after another occurrence, merged with the flag as `OpenAt` says. -/
theorem LoopEntry.merge {cgs : List CG} {f : String} {c : Node} (h : LoopEntry cgs f c) {cg : CG} {v : Node}
    (hv : cg.find f = some v) (hmeasured : v.Measured) {b : Bool} (hb : (mergeNode b c v).1 = true ↔ OpenAt f cgs cg)
    (hc : c.info.loopDepth.contains = true) : LoopEntry (cgs ++ [cg]) f (mergeNode b c v).2 where
  hasBody := by
    rw [mergeNode_hasBody, Bool.or_eq_true, h.hasBody, occurrences_concat, hv]
    simp only [Option.toList_some, List.mem_append, List.mem_singleton, or_and_right, exists_or, exists_eq_left]
  loopDepth := by
    obtain ⟨u, hu, hdepth⟩ := h.loopDepth
    obtain ⟨ld, -, hld, -⟩ := hmeasured
    have hbody : c.hasBody = false ↔ ∀ x ∈ occurrences cgs f, x.hasBody = false := by
      rw [← Bool.not_eq_true, h.hasBody]
      simp
    refine ⟨_, by rw [occurrences_concat, hv]; exact leading_concat hu, ?_⟩
    rw [mergeNode_loopDepth, hc, Bool.and_true]
    by_cases hlead : v.hasBody = true ∧ ∀ x ∈ occurrences cgs f, x.hasBody = false
    · rw [if_pos hlead, hlead.1, hbody.mpr hlead.2, hld]
      rfl
    · rw [if_neg hlead, ← hdepth]
      refine if_neg fun hcond => hlead ?_
      simp only [Bool.and_eq_true, Bool.not_eq_true'] at hcond
      exact ⟨hcond.1, hbody.mp hcond.2⟩
  loopCallDepth := by
    obtain ⟨m, hm, hrec⟩ := h.loopCallDepth
    obtain ⟨-, mv, -, hmv, -⟩ := hmeasured
    have hlists : ∀ g d, v.Lists g d ↔ mv.find g = some d := by
      intro g d
      unfold Node.Lists
      simp [hmv]
    have hne := h.occurs
    rw [mergeNode_loopCallDepth, hm, hmv]
    by_cases hopen : OpenAt f cgs cg
    · refine ⟨m.unionWith max mv, ?_, (hrec.trans (Records.unionWith m mv)).congr fun g d => ?_⟩
      · rw [mergeLoops, if_pos (hb.mpr hopen), ← mergeLoopCallDepth_eq]
      · simp only [counted_concat, hv, Option.some.injEq, hne, false_or, hopen, and_true, or_and_right, exists_or,
          exists_eq_left', hlists]
    · refine ⟨m, ?_, hrec.congr fun g d => ?_⟩
      · rw [mergeLoops, if_neg fun hset => hopen (hb.mp hset)]
      · simp only [counted_concat, hne, hopen, or_self, and_false, or_false]
  globalLoopDepth := by
    obtain ⟨u, hu, hglobal⟩ := h.globalLoopDepth
    refine ⟨u, ?_, ?_⟩
    · rw [occurrences_concat, List.head?_append_of_ne_nil _ h.occurs]
      exact hu
    · rw [← hglobal]
      change (mergeBodies b c v).2.info.globalLoopDepth = _
      unfold mergeBodies
      dsimp only
      split_ifs <;> rfl

/-- The entry of a function that the file does not have. -/
theorem LoopEntry.skip {cgs : List CG} {f : String} {c : Node} (h : LoopEntry cgs f c) {cg : CG} (hv : cg.find f = none) :
    LoopEntry (cgs ++ [cg]) f c := by
  have hocc : occurrences (cgs ++ [cg]) f = occurrences cgs f := by
    rw [occurrences_concat, hv, Option.toList_none, List.append_nil]
  have hcounted : ∀ v, Counted (cgs ++ [cg]) f v ↔ Counted cgs f v := by
    intro v
    rw [counted_concat, hv]
    simp
  obtain ⟨m, hm, hrec⟩ := h.loopCallDepth
  refine ⟨?_, ?_, ⟨m, hm, hrec.congr fun g d => by simp only [hcounted]⟩, ?_⟩
  · rw [hocc]
    exact h.hasBody
  · rw [hocc]
    exact h.loopDepth
  · rw [hocc]
    exact h.globalLoopDepth

/-- The entry of a function that occurs for the first time. -/
theorem LoopEntry.first {cgs : List CG} {f : String} {cg : CG} {v : Node} (hocc : occurrences cgs f = [])
    (hv : cg.find f = some v) (hmeasured : v.Measured) : LoopEntry (cgs ++ [cg]) f v := by
  have hocc' : occurrences (cgs ++ [cg]) f = [v] := by rw [occurrences_concat, hocc, hv]; rfl
  obtain ⟨-, m, -, hm, -⟩ := hmeasured
  refine ⟨by simp [hocc'], ⟨v, ?_, rfl⟩, ⟨m, hm, ?_⟩, v, by rw [hocc']; rfl, rfl⟩
  · rw [hocc', leading]
    cases hb : v.hasBody <;> simp [hb]
  · have hcounted : ∀ u, Counted (cgs ++ [cg]) f u ↔ u = v := by
      intro u
      rw [counted_concat, hv, Option.some.injEq, hocc]
      constructor
      · rintro (hu | ⟨hu, -⟩)
        · have hmem := hu.mem_occurrences
          rw [hocc] at hmem
          cases hmem
        · exact hu.symm
      · exact fun hu => .inr ⟨hu.symm, .inl rfl⟩
    have hlists : ∀ g d, (∃ u, Counted (cgs ++ [cg]) f u ∧ u.Lists g d) ↔ m.find g = some d := by
      intro g d
      simp only [hcounted, exists_eq_left]
      unfold Node.Lists
      simp [hm]
    exact ⟨fun g d hd => .inr ((hlists g d).mpr hd), (fun g d hd => by cases hd),
      fun g d hd => ⟨d, (hlists g d).mp hd, le_rfl⟩⟩

/-! ## The loops -/

/-- All functions of the file carry loop metadata. -/
def Looped (cg : CG) : Prop := ∀ f v, cg.find f = some v → v.Measured

theorem leading_mem {l : List Node} {v : Node} (h : leading l = some v) : v ∈ l := by
  rcases Option.or_eq_some_iff.mp h with h | ⟨-, h⟩
  · exact List.mem_of_find?_eq_some h
  · exact List.mem_of_mem_head? h

section
variable {cgs : List CG} {b : Bool} {g : CG}

theorem LoopState.contains (h : LoopState cgs b g) (hcgs : ∀ cg ∈ cgs, Looped cg) {f : String} {c : Node}
    (hc : g.find f = some c) : c.info.loopDepth.contains = true := by
  obtain ⟨v, hv, hdepth⟩ := (h.entry f c hc).loopDepth
  obtain ⟨cg, hcg, hfind⟩ := mem_occurrences.mp (leading_mem hv)
  obtain ⟨ld, -, hld, -⟩ := hcgs cg hcg f v hfind
  rw [hdepth, hld]
  rfl

/-- One function of a file opens if it has been met without body only. -/
theorem LoopState.opens_iff (h : LoopState cgs b g) {cg : CG} {f : String} {v : Node} (hv : cg.find f = some v) :
    Opens f cgs cg ↔ v.hasBody = true ∧ ∃ c, g.find f = some c ∧ c.hasBody = false := by
  unfold Opens
  rw [hv]
  simp only [Option.some.injEq, exists_eq_left']
  refine and_congr_right fun _ => ?_
  cases hc : g.find f with
  | none => simp [h.absent f hc]
  | some c =>
    have hentry := h.entry f c hc
    have hbody : c.hasBody = false ↔ ∀ u ∈ occurrences cgs f, u.hasBody = false := by
      rw [← Bool.not_eq_true, hentry.hasBody]
      simp
    simp only [Option.some.injEq, exists_eq_left', hbody, and_iff_right hentry.occurs]

/-- The functions of a list whose entries are still those of the files before set the flag where
they open. -/
theorem LoopState.flag_foldl (h : LoopState cgs b g) (hcgs : ∀ cg ∈ cgs, Looped cg) {cg : CG} {l : List (String × Node)}
    (hl : ∀ e ∈ l, cg.find e.1 = some e.2) (hn : (l.map Prod.fst).Nodup) {st : Bool × CG}
    (hst : ∀ e ∈ l, st.2.find e.1 = g.find e.1) :
    (l.foldl mergeFunction st).1 = true ↔ st.1 = true ∨ ∃ e ∈ l, Opens e.1 cgs cg := by
  induction l generalizing st with
  | nil => simp
  | cons e l ih =>
    rw [List.map_cons, List.nodup_cons] at hn
    have hstep : (mergeFunction st e).1 = true ↔ st.1 = true ∨ Opens e.1 cgs cg := by
      rw [h.opens_iff (hl e (List.mem_cons_self ..)), ← hst e (List.mem_cons_self ..)]
      unfold mergeFunction
      cases hc : st.2.find e.1 with
      | none => simp
      | some c =>
        have hcontains : c.info.loopDepth.contains = true := by
          rw [hst e (List.mem_cons_self ..)] at hc
          exact h.contains hcgs hc
        change (mergeNode st.1 c e.2).1 = true ↔ _
        rw [mergeNode_flag, hcontains]
        simp
    have hrest : ∀ e' ∈ l, (mergeFunction st e).2.find e'.1 = g.find e'.1 := by
      intro e' he'
      rw [find_mergeFunction, if_neg]
      · exact hst e' (List.mem_cons_of_mem e he')
      · intro heq
        exact hn.1 (heq ▸ List.mem_map_of_mem he')
    rw [List.foldl_cons, ih (fun e' he' => hl e' (List.mem_cons_of_mem e he')) hn.2 hrest, hstep]
    simp only [List.mem_cons, exists_eq_or_imp, or_assoc]

/-- The functions that are merged before `f`. -/
theorem mem_takeWhile_entries {cg : CG} {f : String} {v : Node} (hv : cg.find f = some v) (e : String × Node) :
    e ∈ cg.entries.takeWhile (fun e => e.1 ≠ f) ↔ cg.find e.1 = some e.2 ∧ e.1 < f := by
  have key : ∀ l : List (String × Node), Ordered.Sorted l → (f, v) ∈ l →
      (e ∈ l.takeWhile (fun e => e.1 ≠ f) ↔ e ∈ l ∧ e.1 < f) := by
    intro l hs hf
    induction l with
    | nil => cases hf
    | cons a l ih =>
      rw [Ordered.Sorted, List.pairwise_cons] at hs
      by_cases ha : a.1 = f
      · rw [List.takeWhile_cons_of_neg (by simpa using ha)]
        refine ⟨(fun he => by cases he), ?_⟩
        rintro ⟨he, hlt⟩
        rcases List.mem_cons.mp he with rfl | he
        · exact absurd ha hlt.ne
        · exact absurd (hs.1 e he) (ha ▸ hlt.asymm)
      · have hmem : (f, v) ∈ l := (List.mem_cons.mp hf).resolve_left fun heq => ha (heq ▸ rfl)
        rw [List.takeWhile_cons_of_pos (by simpa using ha), List.mem_cons, List.mem_cons, ih hs.2 hmem, or_and_right]
        refine or_congr_left (iff_self_and.mpr ?_)
        rintro rfl
        exact hs.1 (f, v) hmem
  rw [key cg.entries cg.sorted (OMap.mem_entries.mpr hv)]
  exact and_congr_left' OMap.mem_entries

/-- The flag with which the loop over a file leaves the function `f`. -/
theorem LoopState.flag_mergeNode (h : LoopState cgs b g) (hcgs : ∀ cg ∈ cgs, Looped cg) {cg : CG} {f : String} {c v : Node}
    (hv : cg.find f = some v) (hc : g.find f = some c) :
    (mergeNode (flagAt (b, g) cg.entries f) c v).1 = true ↔ OpenAt f cgs cg := by
  have hbefore : flagAt (b, g) cg.entries f = true ↔ Opened cgs ∨ ∃ e < f, Opens e cgs cg := by
    rw [flagAt, h.flag_foldl hcgs (fun e he => ((mem_takeWhile_entries hv e).mp he).1)
      (cg.sorted.keys_nodup.sublist ((List.takeWhile_sublist _).map Prod.fst)) fun e _ => rfl, h.flag]
    refine or_congr_right ⟨?_, ?_⟩
    · rintro ⟨e, he, hopens⟩
      exact ⟨e.1, ((mem_takeWhile_entries hv e).mp he).2, hopens⟩
    · rintro ⟨e, he, hopens⟩
      obtain ⟨u, hu, -⟩ := id hopens
      exact ⟨(e, u), (mem_takeWhile_entries hv (e, u)).mpr ⟨hu, he⟩, hopens⟩
  have hself : (v.hasBody && !c.hasBody && c.info.loopDepth.contains) = true ↔ Opens f cgs cg := by
    rw [h.opens_iff hv, hc, h.contains hcgs hc]
    simp
  rw [mergeNode_flag, Bool.or_eq_true, hbefore, hself, OpenAt, or_assoc]
  simp only [le_iff_lt_or_eq, or_and_right, exists_or, exists_eq_left]

theorem LoopState.mergeGraph (h : LoopState cgs b g) (hcgs : ∀ cg ∈ cgs, Looped cg) {cg : CG} (hcg : Looped cg) :
    LoopState (cgs ++ [cg]) (cg.entries.foldl mergeFunction (b, g)).1 (cg.entries.foldl mergeFunction (b, g)).2 := by
  have hentries : ∀ e ∈ cg.entries, cg.find e.1 = some e.2 := fun e he => OMap.mem_entries.mp he
  have hfind := find_foldl_mergeFunction cg.sorted.keys_nodup (b, g)
  refine ⟨?_, fun f hf => ?_, fun f c hc => ?_⟩
  · rw [h.flag_foldl hcgs hentries cg.sorted.keys_nodup fun e _ => rfl, opened_concat, h.flag]
    refine or_congr_right ⟨?_, ?_⟩
    · rintro ⟨e, -, he⟩
      exact ⟨e.1, he⟩
    · rintro ⟨f, hf⟩
      obtain ⟨v, hv, -⟩ := id hf
      exact ⟨(f, v), OMap.mem_entries.mpr hv, hf⟩
  · rw [hfind f, ← OMap.find] at hf
    obtain ⟨hv, hold⟩ := Option.or_eq_none_iff.mp hf
    have hv' : cg.find f = none := Option.map_eq_none_iff.mp hv
    rw [occurrences_concat, h.absent f hold, hv']
    rfl
  · rw [hfind f, ← OMap.find] at hc
    cases hv : cg.find f with
    | none =>
      rw [hv] at hc
      exact (h.entry f c hc).skip hv
    | some v =>
      rw [hv] at hc
      cases hold : g.find f with
      | none =>
        rw [hold] at hc
        cases hc
        exact .first (h.absent f hold) hv (hcg f v hv)
      | some d =>
        rw [hold] at hc
        cases hc
        exact (h.entry f d hold).merge hv (hcg f v hv) (h.flag_mergeNode hcgs hv hold) (h.contains hcgs hold)

end

theorem LoopEntry.congr {cgs : List CG} {f : String} {c d : Node} (h : LoopEntry cgs f c) (hbody : d.hasBody = c.hasBody)
    (hinfo : d.info = c.info) : LoopEntry cgs f d where
  hasBody := by rw [hbody]; exact h.hasBody
  loopDepth := by rw [hinfo]; exact h.loopDepth
  loopCallDepth := by rw [hinfo]; exact h.loopCallDepth
  globalLoopDepth := by rw [hinfo]; exact h.globalLoopDepth

/-- Pointer data changes the calls only. -/
theorem LoopState.withCalls {cgs : List CG} {b : Bool} {g : CG} (h : LoopState cgs b g) (calls : CGMerge.WholeCG) :
    LoopState cgs b (withCalls g calls) := by
  refine ⟨h.flag, fun f hf => ?_, fun f d hd => ?_⟩
  · rw [FormatTwo.withCalls, OMap.find_mapValues] at hf
    exact h.absent f (Option.map_eq_none_iff.mp hf)
  · rw [FormatTwo.withCalls, OMap.find_mapValues] at hd
    obtain ⟨c, hc, rfl⟩ := Option.map_eq_some_iff.mp hd
    have hentry := h.entry f c hc
    cases calls.find f with
    | none => exact hentry
    | some _ => exact hentry.congr rfl rfl

theorem loopState_mergeFiles {fuel : ℕ} {files : List InputFile} (hfiles : ∀ file ∈ files, Looped file.cg) {st : MergeState}
    (h : files.foldlM (mergeFile fuel) .initial = .ok st) :
    LoopState (files.map InputFile.cg) st.hasLoopInfo st.wholeCG ∧
      (st.hasAAInfo = true ↔ ∃ file ∈ files, file.pointerEquivalenceData.isSome = true) := by
  refine foldlM_ok_inv (J := fun pre st => LoopState (pre.map InputFile.cg) st.hasLoopInfo st.wholeCG ∧
    (st.hasAAInfo = true ↔ ∃ file ∈ pre, file.pointerEquivalenceData.isSome = true)) ?_ ?_ h
  · exact ⟨.initial, by simp [MergeState.initial]⟩
  intro pre file st st' hpre hJ hst
  have hmem : ∀ x ∈ pre ++ [file], x ∈ files := fun x hx => hpre.subset hx
  have hcgs : ∀ cg ∈ pre.map InputFile.cg, Looped cg := by
    intro cg hcg
    obtain ⟨x, hx, rfl⟩ := List.mem_map.mp hcg
    exact hfiles x (hmem x (List.mem_append_left _ hx))
  have hmerged := hJ.1.mergeGraph hcgs (hfiles file (hmem file (List.mem_append_right _ (List.mem_singleton_self file))))
  rw [List.map_append, List.map_singleton]
  have hdata : (∃ x ∈ pre ++ [file], x.pointerEquivalenceData.isSome = true) ↔
      (∃ x ∈ pre, x.pointerEquivalenceData.isSome = true) ∨ file.pointerEquivalenceData.isSome = true := by
    simp [or_and_right, exists_or]
  rw [hdata]
  unfold mergeFile at hst
  cases hfile : file.pointerEquivalenceData with
  | none =>
    rw [hfile] at hst
    cases hst
    refine ⟨hmerged, ?_⟩
    rw [Option.isSome_none, or_iff_left Bool.false_ne_true]
    exact hJ.2
  | some data =>
    rw [hfile] at hst
    obtain ⟨r, -, hst⟩ := bind_eq_ok.mp hst
    cases hst
    exact ⟨hmerged.withCalls r.2, by simp⟩

end MetaCG.FormatTwo
