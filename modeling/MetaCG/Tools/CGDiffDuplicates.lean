import MetaCG.Format.DotRoundTrip
import MetaCG.Tools.CGDiffCompare

/-! `cgdiff` on graphs with several nodes of one name.

Of the nodes of a name only the first has a summary. The comparison with no flag set sees whether the first
nodes have a body; what the other nodes of the name are is not compared, nor is their number. -/
namespace MetaCG.CGDiff
open Foundations Callgraph
set_option autoImplicit false
set_option maxHeartbeats 250000
set_option maxRecDepth 120000

/-- Which of the nodes of a name have a body, in the order of their insertion. -/
def bodies (g : Callgraph) (name : String) : List Bool :=
  (g.liveNodes.filter fun n => decide (n.functionName = name)).map CgNode.hasBody

theorem head?_bodies (g : Callgraph) (name : String) : (bodies g name).head? = (firstNode g name).map CgNode.hasBody := by
  rw [bodies, List.head?_map, List.head?_filter, firstNode]

/-- The nodes of a name after the first are left when the first nodes agree. -/
theorem perm_iff_tail {α : Type} {l l' : List α} (h : l.head? = l'.head?) : l.Perm l' ↔ l.tail.Perm l'.tail := by
  cases l with
  | nil =>
    rw [List.head?_eq_none_iff.mp h.symm]
    exact iff_of_true (.refl _) (.refl _)
  | cons a l =>
    obtain ⟨l', rfl⟩ := List.head?_eq_some_iff.mp h.symm
    exact List.perm_cons a

section
variable (dump : Json → String) (sortJson : List Json → List Json) (ignoredMdKeys : List String) (order : Dot.HashOrder)

/-- Nothing that is compared differs: metadata can be read, global metadata and first nodes look alike. -/
structure NothingSeen (A B : Callgraph) : Prop where
  readableA : Readable noFlags A
  readableB : Readable noFlags B
  globals : GlobalsAlike dump ignoredMdKeys noFlags A B
  firsts : FirstsAlike dump sortJson ignoredMdKeys order noFlags A B

theorem NothingSeen.head? {A B : Callgraph} (h : NothingSeen dump sortJson ignoredMdKeys order A B) (name : String) :
    (bodies A name).head? = (bodies B name).head? := by
  rw [head?_bodies, head?_bodies]
  have hrel := h.firsts name
  generalize firstNode A name = fA at hrel ⊢
  generalize firstNode B name = fB at hrel ⊢
  cases hrel with
  | none => rfl
  | some halike => exact congrArg some (halike.hasBody rfl)

/-- An empty result means the same nodes of every name iff something that is compared differs, or the nodes
after the first of every name are the same. -/
theorem compare_bodies_iff (A B : Callgraph) (hA : A.Wf) (hB : B.Wf) :
    (compare dump sortJson ignoredMdKeys order noFlags A B = .ok [] → ∀ name, (bodies A name).Perm (bodies B name)) ↔
      (NothingSeen dump sortJson ignoredMdKeys order A B → ∀ name, (bodies A name).tail.Perm (bodies B name).tail) := by
  have hnil : compare dump sortJson ignoredMdKeys order noFlags A B = .ok [] ↔
      NothingSeen dump sortJson ignoredMdKeys order A B := by
    rw [compare_eq_nil_iff dump sortJson ignoredMdKeys order noFlags hA hB]
    exact ⟨fun h => ⟨h.1.1, h.1.2, h.2.1, h.2.2⟩, fun h => ⟨⟨h.readableA, h.readableB⟩, h.globals, h.firsts⟩⟩
  rw [hnil]
  exact forall_congr' fun h => forall_congr' fun name => perm_iff_tail (h.head? _ _ _ _ name)

end

/-- One function with a body. -/
def oneF : Callgraph := Callgraph.run 0 [.insert "f" none false true]

/-- Two functions of one name, the second without a body. -/
def twoF : Callgraph := Callgraph.run 0 [.insert "f" none false true, .insert "f" (some "b.cpp") false false]

/-- The same functions, the second from another file. -/
def twoF' : Callgraph := Callgraph.run 0 [.insert "f" none false true, .insert "f" (some "c.cpp") false false]

theorem compare_bodies_twoF : compare (fun _ => "") id [] Dot.dedupOrder noFlags twoF twoF' = .ok [] ∧
    ∀ name, (bodies twoF name).Perm (bodies twoF' name) := by
  have hnil : compare (fun _ => "") id [] Dot.dedupOrder noFlags twoF twoF' = .ok [] := rfl
  have hnamed : ∀ n ∈ twoF.liveNodes ++ twoF'.liveNodes, n.functionName = "f" := by decide
  have hnone : ∀ name, "f" ≠ name → bodies twoF name = [] ∧ bodies twoF' name = [] := fun name hf => by
    refine ⟨?_, ?_⟩ <;> refine List.map_eq_nil_iff.mpr (List.filter_eq_nil_iff.mpr fun n hn => ?_)
    · rw [hnamed n (List.mem_append_left _ hn), decide_eq_true_iff]
      exact hf
    · rw [hnamed n (List.mem_append_right _ hn), decide_eq_true_iff]
      exact hf
  have hsame : ∀ name, bodies twoF name = bodies twoF' name := fun name => by
    by_cases hf : "f" = name
    · subst hf
      rfl
    · rw [(hnone name hf).1, (hnone name hf).2]
  exact ⟨hnil, (compare_bodies_iff (fun _ => "") id [] Dot.dedupOrder twoF twoF' (Callgraph.run_wf 0 _)
    (Callgraph.run_wf 0 _)).mpr (fun _ name => by rw [hsame]) hnil⟩

/-- The second node of a name is not compared. -/
theorem compare_oneF_twoF : oneF.NoErased ∧ twoF.NoErased ∧
    compare (fun _ => "") id [] Dot.dedupOrder noFlags oneF twoF = .ok [] ∧
      ¬ ∀ name, (bodies oneF name).Perm (bodies twoF name) := by
  refine ⟨by decide, by decide, rfl, fun h => ?_⟩
  have hne : (bodies oneF "f").length ≠ (bodies twoF "f").length := by decide
  exact hne (h "f").length_eq

end MetaCG.CGDiff
