import MetaCG.Format.DotParser

/-! Statements (`n1 -> n2 -> ...`) and what the parser makes of them.

While statements are read the stack is empty, or holds the last entity, or a connector above it. The calls
that such a sequence of tokens makes are given by `Source.calls`. -/
namespace MetaCG.Dot
open Foundations Callgraph
set_option autoImplicit false
set_option maxHeartbeats 250000
set_option maxRecDepth 120000

/-! ## The calls of a sequence of tokens -/

/-- What the next entity follows. -/
inductive Source where
  | none
  | entity (spelling : String)
  | connected (spelling : String)

/-- An entity was the last token that counts. -/
def Source.isEntity : Source → Bool
  | .entity _ => true
  | _ => false

/-- The calls between the entities that connectors join. -/
def Source.calls : Source → List ParsedToken → List (String × String)
  | _, [] => []
  | src, ⟨.IGNORE, _⟩ :: tokens => src.calls tokens
  | .connected a, ⟨.ENTITY, b⟩ :: tokens => (a, b) :: (Source.entity b).calls tokens
  | _, ⟨.ENTITY, b⟩ :: tokens => (Source.entity b).calls tokens
  | .entity a, ⟨.CONNECTOR, _⟩ :: tokens => (Source.connected a).calls tokens
  | _, ⟨.CONNECTOR, _⟩ :: _ => []

/-- The stack of the parser; an entity on it has a node. -/
def Source.Stack (g : Callgraph) : Source → List ParsedToken → Prop
  | .none, stack => stack = []
  | .entity a, stack => stack = [⟨.ENTITY, a⟩] ∧ a ≠ "" ∧ g.getNodesNamed a ≠ []
  | .connected a, stack => ∃ arrow, stack = [⟨.CONNECTOR, arrow⟩, ⟨.ENTITY, a⟩] ∧ a ≠ "" ∧ g.getNodesNamed a ≠ []

/-- The parser is inside the graph and reads statements. -/
structure Reading (src : Source) (p : DotParser) : Prop where
  state : p.state = .GRAPH
  wf : p.callgraph.Wf
  stack : src.Stack p.callgraph p.seenTokens

section
variable {src : Source} {p : DotParser}

theorem Reading.short (h : Reading src p) : p.seenTokens.length < 3 := by
  have hstack := h.stack
  cases src with
  | none => simp [show p.seenTokens = [] from hstack]
  | entity a => simp [hstack.1]
  | connected a =>
    obtain ⟨arrow, hs, -⟩ := hstack
    simp [hs]

theorem Reading.ignore (h : Reading src p) (spelling : String) : handleToken p ⟨.IGNORE, spelling⟩ = .ok p := by
  rw [handleToken, reduceStack, if_pos h.short]

/-- An entity gets a node, and the call of the entity before the connector is added. -/
theorem Reading.entity (h : Reading src p) {b : String} (hb : b ≠ "") : ∃ p', handleToken p ⟨.ENTITY, b⟩ = .ok p' ∧
    Reading (.entity b) p' ∧ Extends p.callgraph {b} {e | e ∈ src.calls [⟨.ENTITY, b⟩]} p'.callgraph := by
  have hstack := h.stack
  have hinsert : ∃ g' i, p.callgraph.getOrInsertNode b none false false = .ok (g', i) ∧ Extends p.callgraph {b} ∅ g' := by
    obtain ⟨g', i, hg', -, hext⟩ := h.wf.getOrInsertNode_extends hb none false false
    exact ⟨g', i, hg', hext⟩
  have hnamed : ∀ {names calls g'}, Extends p.callgraph names calls g' → b ∈ names → g'.getNodesNamed b ≠ [] :=
    fun hext hin => (hext.named_iff b).mpr (.inr hin)
  rw [handleToken]
  dsimp only
  unfold handleEntity
  rw [h.state]
  cases src with
  | none =>
    obtain ⟨g', i, hg', hext⟩ := hinsert
    rw [show p.seenTokens = [] from hstack]
    refine ⟨⟨.GRAPH, g', [⟨.ENTITY, b⟩]⟩, ?_, ⟨rfl, hext.wf, rfl, hb, hnamed hext rfl⟩, ?_⟩
    · simp [hg']
    · simpa [Source.calls] using hext
  | entity a =>
    obtain ⟨g', i, hg', hext⟩ := hinsert
    rw [hstack.1]
    refine ⟨⟨.GRAPH, g', [⟨.ENTITY, b⟩]⟩, ?_, ⟨rfl, hext.wf, rfl, hb, hnamed hext rfl⟩, ?_⟩
    · simp [hg']
    · simpa [Source.calls] using hext
  | connected a =>
    obtain ⟨arrow, hs, ha, hnode⟩ := hstack
    obtain ⟨g', hg', hext⟩ := connect_extends h.wf ha hb
    rw [hs]
    refine ⟨⟨.GRAPH, g', [⟨.ENTITY, b⟩]⟩, ?_, ⟨rfl, hext.wf, rfl, hb, hnamed hext (.inr rfl)⟩, ?_⟩
    · simp [reduceStack, reduceLoop, hg']
    · simpa [Source.calls] using hext.drop h.wf hnode

theorem Reading.connector {a : String} (h : Reading (.entity a) p) (arrow : String) :
    ∃ p', handleToken p ⟨.CONNECTOR, arrow⟩ = .ok p' ∧ Reading (.connected a) p' ∧ p'.callgraph = p.callgraph := by
  obtain ⟨hs, ha, hnode⟩ := h.stack
  refine ⟨handleConnector p ⟨.CONNECTOR, arrow⟩, rfl, ⟨h.state, h.wf, arrow, ?_, ha, hnode⟩, rfl⟩
  rw [handleConnector, hs]

/-- Connectors pile up on the stack. -/
theorem connectors_run (tokens : List ParsedToken) (htokens : ∀ t ∈ tokens, t.type = .CONNECTOR) (p : DotParser) :
    ∃ p', tokens.foldlM handleToken p = .ok p' ∧ p'.callgraph = p.callgraph := by
  induction tokens generalizing p with
  | nil => exact ⟨p, rfl, rfl⟩
  | cons token tokens ih =>
    rw [List.forall_mem_cons] at htokens
    obtain ⟨p', hp', hg⟩ := ih htokens.2 (handleConnector p token)
    refine ⟨p', ?_, hg⟩
    rw [List.foldlM_cons, handleToken, htokens.1]
    exact hp'

theorem spellings_cons (token : ParsedToken) (tokens : List ParsedToken) : spellings (token :: tokens) =
    (if token.type = .ENTITY then {token.spelling} else ∅) ∪ spellings tokens := by
  refine Set.ext fun s => ?_
  obtain ⟨type, spelling⟩ := token
  cases type <;> simp [spellings]

/-- On tokens whose connectors follow entities the parser gives each entity a node and adds their calls. -/
theorem Reading.run (tokens : List ParsedToken) (hempty : "" ∉ spellings tokens)
    (hpaired : Paired src.isEntity (tokens.map ParsedToken.type)) (h : Reading src p) :
    ∃ p', tokens.foldlM handleToken p = .ok p' ∧
      Extends p.callgraph (spellings tokens) {e | e ∈ src.calls tokens} p'.callgraph := by
  induction tokens generalizing src p with
  | nil =>
    have hnone : {e | e ∈ src.calls []} = (∅ : Set (String × String)) := by cases src <;> simp [Source.calls]
    have hspelled : spellings [] = ∅ := by simp [spellings]
    rw [hnone, hspelled]
    exact ⟨p, rfl, .refl h.wf⟩
  | cons token tokens ih =>
    obtain ⟨type, spelling⟩ := token
    rw [spellings_cons] at hempty ⊢
    rw [Set.mem_union, not_or] at hempty
    rw [List.foldlM_cons]
    cases type with
    | IGNORE =>
      obtain ⟨p', hp', hext⟩ := ih hempty.2 hpaired h
      refine ⟨p', ?_, ?_⟩
      · rw [h.ignore, ok_bind, hp']
      · cases src <;> simpa [Source.calls] using hext
    | ENTITY =>
      have hb : spelling ≠ "" := fun he => hempty.1 (by simp [he])
      obtain ⟨p₁, hp₁, hreading, hext₁⟩ := h.entity hb
      obtain ⟨p', hp', hext⟩ := ih hempty.2 (by cases src <;> exact hpaired) hreading
      refine ⟨p', ?_, ?_⟩
      · rw [hp₁, ok_bind, hp']
      · have hcalls : {e | e ∈ src.calls (⟨.ENTITY, spelling⟩ :: tokens)} =
            {e | e ∈ src.calls [⟨.ENTITY, spelling⟩]} ∪ {e | e ∈ (Source.entity spelling).calls tokens} := by
          refine Set.ext fun e => ?_
          cases src <;> simp [Source.calls]
        rw [hcalls, if_pos rfl]
        exact hext₁.trans hext
    | CONNECTOR =>
      rw [if_neg (by simp), Set.empty_union]
      -- an unpaired connector ends the statements: nothing but connectors comes after it
      have hlast : src.isEntity = false → src.calls (⟨.CONNECTOR, spelling⟩ :: tokens) = [] →
          ∃ p', (handleToken p ⟨.CONNECTOR, spelling⟩ >>= fun p => tokens.foldlM handleToken p) = .ok p' ∧
            Extends p.callgraph (spellings tokens) {e | e ∈ src.calls (⟨.CONNECTOR, spelling⟩ :: tokens)} p'.callgraph := by
        intro hsrc hcalls
        rw [hsrc] at hpaired
        have hall : ∀ t ∈ tokens, t.type = .CONNECTOR := fun t ht => hpaired t.type (List.mem_map_of_mem ht)
        obtain ⟨p', hp', hg⟩ := connectors_run (⟨.CONNECTOR, spelling⟩ :: tokens) (List.forall_mem_cons.mpr ⟨rfl, hall⟩) p
        have hspelled : spellings tokens = ∅ := by
          refine Set.eq_empty_iff_forall_notMem.mpr fun s hs => ?_
          cases hall _ hs
        refine ⟨p', hp', ?_⟩
        rw [hcalls, hspelled, hg]
        simpa using Extends.refl h.wf
      cases src with
      | none => exact hlast rfl rfl
      | connected a => exact hlast rfl rfl
      | entity a =>
        obtain ⟨p₁, hp₁, hreading, hg⟩ := h.connector spelling
        obtain ⟨p', hp', hext⟩ := ih hempty.2 hpaired hreading
        rw [hg] at hext
        exact ⟨p', by rw [hp₁, ok_bind, hp'], hext⟩

end

end MetaCG.Dot
