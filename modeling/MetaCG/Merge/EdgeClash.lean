import MetaCG.Merge.EdgeLoop

/-! When the metadata of one target edge can be absorbed.

Only the kinds of the objects matter. Keys other than the base key never change their kind. The
object under the base key is replaced by every entry whose key the edge lacks, so what a later entry
meets there is the last one that was put there (`kindAt`). The entries are absorbed iff none of them
meets an object of another kind, and none meets an object at all without the action of its source
node (`NoClash`). -/
namespace MetaCG
open Foundations
set_option autoImplicit false
set_option maxHeartbeats 250000
set_option maxRecDepth 120000

/-! ## Kinds along a list of entries -/

/-- The kind of metadata under each key. -/
abbrev Kinds := String → Option String

/-- The key of an entry and the kind of its metadata. -/
abbrev KindEntry := String × String

namespace Kinds

/-- The entry replaces the object under the base key: its own key is another one that `F` lacks. -/
def overwrites (F : Kinds) (x : KindEntry) : Bool := decide (x.1 ≠ MetaData.baseKey) && (F x.1).isNone

/-- The kind under the base key once the entries `pre` were absorbed. -/
def baseKind (F : Kinds) (pre : List KindEntry) : Option String :=
  ((pre.filter F.overwrites).getLast?.map Prod.snd).or
    ((F MetaData.baseKey).or ((pre.find? fun x => decide (x.1 = MetaData.baseKey)).map Prod.snd))

/-- The kind under `key` once the entries `pre` were absorbed. -/
def kindAt (F : Kinds) (pre : List KindEntry) : Kinds := fun key =>
  if key = MetaData.baseKey then F.baseKind pre else F key

/-- No entry meets an object of another kind, or any object without the action of its source node;
the flag of an entry says whether there is one. -/
def NoClash (F : Kinds) (es : List (Bool × KindEntry)) : Prop :=
  ∀ pre x post, es = pre ++ x :: post → ∀ kind, F.kindAt (pre.map Prod.snd) x.2.1 = some kind →
    x.1 = true ∧ kind = x.2.2

theorem kindAt_nil (F : Kinds) : F.kindAt [] = F := by
  funext key
  unfold kindAt baseKind
  split_ifs with h
  · simp [h]
  · rfl

theorem overwrites_kindAt (F : Kinds) (pre : List KindEntry) : (F.kindAt pre).overwrites = F.overwrites := by
  funext x
  unfold overwrites kindAt
  by_cases h : x.1 = MetaData.baseKey
  · simp [h]
  · rw [if_neg h]

theorem kindAt_append (F : Kinds) (pre es : List KindEntry) :
    F.kindAt (pre ++ es) = (F.kindAt pre).kindAt es := by
  funext key
  by_cases h : key = MetaData.baseKey
  · subst h
    have hb : F.kindAt pre MetaData.baseKey = F.baseKind pre := if_pos rfl
    have hl : (F.kindAt pre).kindAt es MetaData.baseKey = (F.kindAt pre).baseKind es := if_pos rfl
    have hr : F.kindAt (pre ++ es) MetaData.baseKey = F.baseKind (pre ++ es) := if_pos rfl
    rw [hl, hr]
    unfold baseKind
    rw [overwrites_kindAt, hb, baseKind, List.filter_append, List.getLast?_append, List.find?_append]
    cases (es.filter F.overwrites).getLast? <;> cases (pre.filter F.overwrites).getLast? <;>
      cases F MetaData.baseKey <;> cases pre.find? fun x => decide (x.1 = MetaData.baseKey) <;> simp
  · simp only [kindAt, if_neg h]

/-- An entry that meets an object of its kind leaves all kinds as they are. -/
theorem kindAt_singleton_of_some {F : Kinds} {x : KindEntry} {kind : String} (h : F x.1 = some kind) :
    F.kindAt [x] = F := by
  funext key
  unfold kindAt baseKind
  split_ifs with hkey
  · have hno : F.overwrites x = false := by simp [overwrites, h]
    rw [List.filter_cons_of_neg (by simp [hno]), hkey]
    by_cases hx : x.1 = MetaData.baseKey
    · rw [← hx, h]
      rfl
    · cases F MetaData.baseKey <;> simp [hx]
  · rfl

/-- An entry that meets no object puts its kind under the base key. -/
theorem kindAt_singleton_of_none {F : Kinds} {x : KindEntry} (h : F x.1 = none) (key : String) :
    F.kindAt [x] key = if key = MetaData.baseKey then some x.2 else F key := by
  unfold kindAt baseKind
  split_ifs with hkey
  · by_cases hx : x.1 = MetaData.baseKey
    · have hno : F.overwrites x = false := by simp [overwrites, hx]
      rw [List.filter_cons_of_neg (by simp [hno]), ← hx, h]
      simp
    · have hyes : F.overwrites x = true := by simp [overwrites, hx, h]
      rw [List.filter_cons_of_pos hyes]
      rfl
  · rfl

theorem NoClash.nil (F : Kinds) : F.NoClash [] := by
  intro pre x post h
  simp at h

theorem noClash_append (F : Kinds) (es es' : List (Bool × KindEntry)) :
    F.NoClash (es ++ es') ↔ F.NoClash es ∧ (F.kindAt (es.map Prod.snd)).NoClash es' := by
  constructor
  · intro h
    refine ⟨fun pre x post he => h pre x (post ++ es') (by rw [he]; simp), fun pre x post he kind hk => ?_⟩
    refine h (es ++ pre) x post (by rw [he]; simp) kind ?_
    rw [List.map_append, kindAt_append]
    exact hk
  · rintro ⟨h1, h2⟩ pre x post he kind hk
    rcases List.append_eq_append_iff.mp he with ⟨l, rfl, hl⟩ | ⟨l, rfl, hl⟩
    · refine h2 l x post hl kind ?_
      rw [← kindAt_append, ← List.map_append]
      exact hk
    · cases l with
      | nil =>
        refine h2 [] x post hl.symm kind ?_
        rw [List.map_nil, kindAt_nil, List.append_nil]
        exact hk
      | cons y l =>
        obtain ⟨rfl, rfl⟩ := List.cons.inj hl
        exact h1 pre x l rfl kind hk

theorem noClash_cons (F : Kinds) (x : Bool × KindEntry) (es : List (Bool × KindEntry)) :
    F.NoClash (x :: es) ↔
      (∀ kind, F x.2.1 = some kind → x.1 = true ∧ kind = x.2.2) ∧ (F.kindAt [x.2]).NoClash es := by
  rw [← List.singleton_append, noClash_append]
  refine and_congr_left fun _ => ⟨fun h kind hk => ?_, fun h pre y post he kind hk => ?_⟩
  · refine h [] x [] rfl kind ?_
    rw [List.map_nil, kindAt_nil]
    exact hk
  · cases pre with
    | nil =>
      obtain ⟨rfl, -⟩ := List.cons.inj he
      rw [List.map_nil, kindAt_nil] at hk
      exact h kind hk
    | cons z pre => simp at he

end Kinds

/-! ## Absorbing the entries of a target edge -/

def kindsOf (fields : NamedMetadata) : Kinds := fun key => (fields.lookup key).map MetaData.getKey

namespace Callgraph

def kindOf (x : SourceEntry) : KindEntry := (x.2.1, x.2.2.getKey)

/-- An entry as the clash analysis sees it. -/
def flagged (r : MergeRecorder) (x : SourceEntry) : Bool × KindEntry := ((r.getAction x.1).isSome, kindOf x)

section Absorb
variable {r : MergeRecorder} {fields fields' : NamedMetadata} {x : SourceEntry}

theorem absorbEdgeEntry_ok_iff (hrefs : Mapped r.mapping x.2.2.refs) :
    (∃ fields', absorbEdgeEntry r fields x = .ok fields') ↔ ∀ kind, kindsOf fields x.2.1 = some kind →
      (r.getAction x.1).isSome = true ∧ kind = x.2.2.getKey := by
  unfold absorbEdgeEntry kindsOf
  cases hl : fields.lookup x.2.1 with
  | none =>
    obtain ⟨c, hc, -⟩ := x.2.2.cloneMapped_spec hrefs
    simp only [hc]
    exact ⟨fun _ kind h => (by cases h), fun _ => ⟨_, rfl⟩⟩
  | some own =>
    simp only [Option.map_some, Option.some.injEq, forall_eq']
    cases ha : r.getAction x.1 with
    | none =>
      constructor
      · rintro ⟨f, hf⟩
        cases hf
      · rintro ⟨h, -⟩
        cases h
    | some act =>
      by_cases hkind : own.getKey = x.2.2.getKey
      · obtain ⟨m, hm, -⟩ := own.merge_spec x.2.2 (some act) hkind hrefs
        simp only [mergeUnder, hm]
        exact ⟨fun _ => ⟨rfl, hkind⟩, fun _ => ⟨_, rfl⟩⟩
      · simp only [mergeUnder, own.merge_of_ne x.2.2 (some act) r.mapping hkind]
        constructor
        · rintro ⟨f, hf⟩
          cases hf
        · exact fun h => absurd h.2 hkind

theorem absorbEdgeEntry_kinds (h : absorbEdgeEntry r fields x = .ok fields') :
    kindsOf fields' = (kindsOf fields).kindAt [kindOf x] := by
  funext key
  unfold absorbEdgeEntry at h
  cases hl : fields.lookup x.2.1 with
  | none =>
    have hnone : kindsOf fields (kindOf x).1 = none := by rw [kindsOf, kindOf, hl]; rfl
    simp only [hl] at h
    obtain ⟨c, hc, rfl⟩ := MetaData.map_eq_ok h
    have hckey := (MetaData.cloneMapped_result hc).1
    rw [Kinds.kindAt_singleton_of_none hnone, kindsOf, UMap.lookup_insert_ite]
    split_ifs
    · rw [Option.map_some, hckey]
      rfl
    · rfl
  | some own =>
    have hsome : kindsOf fields (kindOf x).1 = some own.getKey := by rw [kindsOf, kindOf, hl]; rfl
    simp only [hl] at h
    obtain ⟨m, hm, rfl⟩ := MetaData.map_eq_ok h
    have hmkey : m.getKey = own.getKey := by
      unfold mergeUnder at hm
      split at hm
      · cases hm
      · exact MetaData.getKey_merged hm
    rw [Kinds.kindAt_singleton_of_some hsome, kindsOf, UMap.lookup_insert_ite, kindsOf]
    split_ifs with he
    · rw [Option.map_some, hmkey, he, hl]
      rfl
    · rfl

theorem absorbEdgeEntries_kinds {es : List SourceEntry} (h : es.foldlM (absorbEdgeEntry r) fields = .ok fields') :
    kindsOf fields' = (kindsOf fields).kindAt (es.map kindOf) := by
  induction es generalizing fields with
  | nil =>
    cases h
    exact (Kinds.kindAt_nil _).symm
  | cons x es ih =>
    rw [List.foldlM_cons] at h
    cases hx : absorbEdgeEntry r fields x with
    | error e => rw [hx] at h; cases h
    | ok f₁ =>
      rw [hx] at h
      rw [ih h, absorbEdgeEntry_kinds hx, ← Kinds.kindAt_append]
      rfl

/-- The entries of a target edge are absorbed iff they do not clash. -/
theorem absorbEdgeEntries_ok_iff {es : List SourceEntry} (hrefs : ∀ x ∈ es, Mapped r.mapping x.2.2.refs) :
    (∃ fields', es.foldlM (absorbEdgeEntry r) fields = .ok fields') ↔
      (kindsOf fields).NoClash (es.map (flagged r)) := by
  induction es generalizing fields with
  | nil => exact ⟨fun _ => Kinds.NoClash.nil _, fun _ => ⟨fields, rfl⟩⟩
  | cons x es ih =>
    have hx : (∃ f, absorbEdgeEntry r fields x = .ok f) ↔ _ :=
      absorbEdgeEntry_ok_iff (hrefs x (List.mem_cons_self ..))
    have hes : ∀ y ∈ es, Mapped r.mapping y.2.2.refs := fun y hy => hrefs y (List.mem_cons_of_mem x hy)
    rw [List.map_cons, Kinds.noClash_cons, List.foldlM_cons]
    change _ ↔ (∀ kind, kindsOf fields x.2.1 = some kind →
      (r.getAction x.1).isSome = true ∧ kind = x.2.2.getKey) ∧ _
    rw [← hx]
    cases hrun : absorbEdgeEntry r fields x with
    | error e =>
      constructor
      · rintro ⟨f, hf⟩
        cases hf
      · rintro ⟨⟨f, hf⟩, -⟩
        cases hf
    | ok f₁ =>
      have hstep : (∃ f, es.foldlM (absorbEdgeEntry r) f₁ = .ok f) ↔ _ := ih hes
      rw [absorbEdgeEntry_kinds hrun] at hstep
      exact ⟨fun h => ⟨⟨f₁, rfl⟩, hstep.mp h⟩, fun h => hstep.mpr h.2⟩

end Absorb
end Callgraph
end MetaCG
