import MetaCG.Format.DotTokens
import MetaCG.Graph.ByName

/-! When the parser gets through its tokens.

Whether an assertion of `reduceStack` fails depends on the kinds of the tokens alone. `stackStep` is the
parser on stacks of kinds, and `Accepted` says which sequences it gets through. -/
namespace MetaCG.Dot
open Foundations Callgraph
set_option autoImplicit false
set_option maxHeartbeats 250000
set_option maxRecDepth 120000

/-! ## Stacks of kinds -/

/-- The loop of `reduceStack` passes its assertions. -/
def reducible : List TokenType → Bool
  | [] => true
  | .ENTITY :: .CONNECTOR :: .ENTITY :: rest => reducible rest
  | _ => false

/-- The kinds of the tokens on the stack after another token. -/
def stackStep (stack : List TokenType) : TokenType → Option (List TokenType)
  | .IGNORE => if stack.length < 3 then some stack else if reducible stack then some [] else none
  | .CONNECTOR => some (.CONNECTOR :: stack)
  | .ENTITY =>
    match stack with
    | [] => some [.ENTITY]
    | .CONNECTOR :: rest =>
      if rest.length < 1 then some (.ENTITY :: .ENTITY :: .CONNECTOR :: rest)
      else if reducible (.ENTITY :: .CONNECTOR :: rest) then some [.ENTITY] else none
    | _ :: rest => some (.ENTITY :: rest)

def accepts (stack types : List TokenType) : Prop := (types.foldlM stackStep stack).isSome = true

instance (stack types : List TokenType) : Decidable (accepts stack types) :=
  inferInstanceAs (Decidable ((types.foldlM stackStep stack).isSome = true))

theorem accepts_nil (stack : List TokenType) : accepts stack [] := rfl

theorem accepts_cons {stack types : List TokenType} {t : TokenType} :
    accepts stack (t :: types) ↔ ∃ stack', stackStep stack t = some stack' ∧ accepts stack' types := by
  unfold accepts
  rw [List.foldlM_cons]
  cases stackStep stack t with
  | none => simp
  | some stack' => simp

theorem accepts_connector {stack types : List TokenType} :
    accepts stack (.CONNECTOR :: types) ↔ accepts (.CONNECTOR :: stack) types := by
  rw [accepts_cons]
  simp [stackStep]

theorem accepts_ignore_short {stack types : List TokenType} (h : stack.length < 3) :
    accepts stack (.IGNORE :: types) ↔ accepts stack types := by
  rw [accepts_cons]
  simp [stackStep, h]

/-! ## The sequences that are accepted -/

/-- A connector that does not follow an entity is followed by connectors only; ignored tokens do not count. The flag
says whether an entity was the last. -/
def Paired : Bool → List TokenType → Prop
  | _, [] => True
  | b, .IGNORE :: types => Paired b types
  | _, .ENTITY :: types => Paired true types
  | true, .CONNECTOR :: types => Paired false types
  | false, .CONNECTOR :: types => ∀ t ∈ types, t = .CONNECTOR

/-- There are no entities, and fewer than `k` connectors before each ignored token. -/
def Quiet : ℕ → List TokenType → Prop
  | _, [] => True
  | k, .IGNORE :: types => 0 < k ∧ Quiet k types
  | k, .CONNECTOR :: types => Quiet (k - 1) types
  | _, .ENTITY :: _ => False

/-- Entities and then connectors. -/
def EntitiesFirst : List TokenType → Prop
  | [] => True
  | .ENTITY :: types => EntitiesFirst types
  | .CONNECTOR :: types => ∀ t ∈ types, t = .CONNECTOR
  | .IGNORE :: _ => False

/-- After a connector at the start: an entity, with nothing ignored from there on. -/
def EntityNext : List TokenType → Prop
  | .IGNORE :: types => EntityNext types
  | .ENTITY :: types => EntitiesFirst types
  | _ => False

/-- One connector at the start. -/
def LeadingConnector : List TokenType → Prop
  | .IGNORE :: types => LeadingConnector types
  | .CONNECTOR :: types => EntityNext types
  | _ => False

def Accepted (types : List TokenType) : Prop := Paired false types ∨ Quiet 3 types ∨ LeadingConnector types

/-- No token but a connector gets through. -/
def Jammed (stack : List TokenType) : Prop :=
  stack = [.CONNECTOR, .ENTITY, .ENTITY, .CONNECTOR] ∨ ∃ t rest, stack = .CONNECTOR :: .CONNECTOR :: t :: rest

theorem accepts_jammed {stack : List TokenType} (h : Jammed stack) (types : List TokenType) :
    accepts stack types ↔ ∀ t ∈ types, t = .CONNECTOR := by
  induction types generalizing stack with
  | nil => simp [accepts_nil]
  | cons t types ih =>
    rw [List.forall_mem_cons]
    cases t with
    | CONNECTOR =>
      have hnext : Jammed (.CONNECTOR :: stack) := by
        rcases h with rfl | ⟨t, rest, rfl⟩
        · exact .inr ⟨_, _, rfl⟩
        · exact .inr ⟨_, _, rfl⟩
      rw [accepts_connector, ih hnext]
      simp
    | IGNORE =>
      have hnone : stackStep stack .IGNORE = none := by
        rcases h with rfl | ⟨t, rest, rfl⟩ <;> simp [stackStep, reducible]
      rw [accepts_cons, hnone]
      simp
    | ENTITY =>
      have hnone : stackStep stack .ENTITY = none := by
        rcases h with rfl | ⟨t, rest, rfl⟩ <;> simp [stackStep, reducible]
      rw [accepts_cons, hnone]
      simp

/-- The stack while statements are read: it is empty, or holds the last entity, or a connector above it. -/
def statementStack : Bool → List TokenType
  | true => [.ENTITY]
  | false => [.CONNECTOR, .ENTITY]

theorem accepts_statement (b : Bool) (types : List TokenType) : accepts (statementStack b) types ↔ Paired b types := by
  induction types generalizing b with
  | nil => simp [accepts_nil, Paired]
  | cons t types ih =>
    cases t with
    | IGNORE =>
      have hlen : (statementStack b).length < 3 := by cases b <;> decide
      rw [accepts_ignore_short hlen, ih, Paired]
    | ENTITY =>
      have hstep : stackStep (statementStack b) .ENTITY = some (statementStack true) := by cases b <;> rfl
      rw [accepts_cons, hstep, Paired, ← ih true]
      simp
    | CONNECTOR =>
      rw [accepts_connector]
      cases b with
      | true => exact ih false
      | false => exact accepts_jammed (.inr ⟨_, _, rfl⟩) types

theorem accepts_entitiesFirst (types : List TokenType) :
    accepts [.ENTITY, .ENTITY, .CONNECTOR] types ↔ EntitiesFirst types := by
  induction types with
  | nil => simp [accepts_nil, EntitiesFirst]
  | cons t types ih =>
    cases t with
    | IGNORE => simp [accepts_cons, stackStep, reducible, EntitiesFirst]
    | ENTITY => simp [accepts_cons, stackStep, EntitiesFirst, ih]
    | CONNECTOR =>
      rw [accepts_connector]
      exact accepts_jammed (.inl rfl) types

theorem quiet_zero (types : List TokenType) : Quiet 0 types ↔ ∀ t ∈ types, t = .CONNECTOR := by
  induction types with
  | nil => simp [Quiet]
  | cons t types ih => cases t <;> simp [Quiet, ih]

theorem quiet_of_connectors {types : List TokenType} (h : ∀ t ∈ types, t = .CONNECTOR) (k : ℕ) : Quiet k types := by
  induction types generalizing k with
  | nil => trivial
  | cons t types ih =>
    rw [List.forall_mem_cons] at h
    rw [h.1]
    exact ih h.2 (k - 1)

theorem accepts_twoConnectors (types : List TokenType) : accepts [.CONNECTOR, .CONNECTOR] types ↔ Quiet 1 types := by
  induction types with
  | nil => simp [accepts_nil, Quiet]
  | cons t types ih =>
    cases t with
    | IGNORE =>
      rw [accepts_ignore_short (by decide), ih]
      simp [Quiet]
    | ENTITY => simp [accepts_cons, stackStep, reducible, Quiet]
    | CONNECTOR =>
      rw [accepts_connector, accepts_jammed (.inr ⟨_, _, rfl⟩)]
      exact (quiet_zero types).symm

theorem accepts_oneConnector (types : List TokenType) :
    accepts [.CONNECTOR] types ↔ Quiet 2 types ∨ EntityNext types := by
  induction types with
  | nil => simp [accepts_nil, Quiet]
  | cons t types ih =>
    cases t with
    | IGNORE =>
      rw [accepts_ignore_short (by decide), ih]
      simp [Quiet, EntityNext]
    | ENTITY =>
      have hstep : stackStep [.CONNECTOR] .ENTITY = some [.ENTITY, .ENTITY, .CONNECTOR] := rfl
      rw [accepts_cons, hstep]
      simp [Quiet, EntityNext, accepts_entitiesFirst]
    | CONNECTOR =>
      rw [accepts_connector, accepts_twoConnectors]
      simp [Quiet, EntityNext]

theorem accepts_nil_iff (types : List TokenType) : accepts [] types ↔ Accepted types := by
  unfold Accepted
  induction types with
  | nil => simp [accepts_nil, Paired]
  | cons t types ih =>
    cases t with
    | IGNORE =>
      rw [accepts_ignore_short (by decide), ih]
      simp [Paired, Quiet, LeadingConnector]
    | ENTITY =>
      have hstep : stackStep [] .ENTITY = some (statementStack true) := rfl
      rw [accepts_cons, hstep]
      simp [Paired, Quiet, LeadingConnector, accepts_statement]
    | CONNECTOR =>
      rw [accepts_connector, accepts_oneConnector, Paired, Quiet, LeadingConnector]
      refine ⟨.inr, ?_⟩
      rintro (hall | h)
      · exact .inl (quiet_of_connectors hall 2)
      · exact h

instance (types : List TokenType) : Decidable (Accepted types) := decidable_of_iff _ (accepts_nil_iff types)

/-! ## The parser -/

/-- The kinds of the tokens that reach the stack: the entities up to the name of the graph do not. -/
def stackTypes : ParseState → List ParsedToken → List TokenType
  | _, [] => []
  | .GRAPH, token :: tokens => token.type :: stackTypes .GRAPH tokens
  | .NAME, token :: tokens =>
    if token.type = .ENTITY then stackTypes (if token.spelling ≠ "" then .GRAPH else .NAME) tokens
    else token.type :: stackTypes .NAME tokens
  | .INIT, token :: tokens =>
    if token.type = .ENTITY then stackTypes (if token.spelling = "digraph" then .NAME else .INIT) tokens
    else token.type :: stackTypes .INIT tokens

/-- The spellings of the entities. -/
def spellings (tokens : List ParsedToken) : Set String := {s | ⟨.ENTITY, s⟩ ∈ tokens}

theorem mem_spellings {tokens : List ParsedToken} {token : ParsedToken} (h : token ∈ tokens) (ht : token.type = .ENTITY) :
    token.spelling ∈ spellings tokens := by
  obtain ⟨type, spelling⟩ := token
  cases ht
  exact h

theorem connect_extends {g : Callgraph} (h : g.Wf) {src target : String} (hs : src ≠ "") (ht : target ≠ "") :
    ∃ g', connect g src target = .ok g' ∧ Extends g {src, target} {(src, target)} g' := by
  obtain ⟨g₁, u, hg₁, hu, hext₁⟩ := h.getOrInsertNode_extends hs none false false
  obtain ⟨g₂, v, hg₂, hv, hext₂⟩ := hext₁.wf.getOrInsertNode_extends ht none false false
  have hext := (hext₁.trans hext₂).trans (hext₂.wf.addEdgeRef_extends 0 (hext₂.kept u src hu) hv)
  rw [Set.union_empty, Set.union_empty, Set.empty_union, Set.singleton_union] at hext
  refine ⟨_, ?_, hext⟩
  rw [connect, hg₁, ok_bind]
  dsimp only
  rw [hg₂, ok_bind]
  rfl

/-- The loop of `reduceStack` on a consistent graph: it passes, with nodes for entities only, or an assertion fails. -/
theorem reduceLoop_reducible {all : List ParsedToken} (hall : "" ∉ spellings all) :
    ∀ (l : List ParsedToken) (g : Callgraph), g.Wf → (∀ t ∈ l, t ∈ all) →
      if reducible (l.map ParsedToken.type) = true then
        ∃ g' names calls, reduceLoop g l = .ok g' ∧ Extends g names calls g' ∧ names ⊆ spellings all
      else ∃ e, reduceLoop g l = .error e
  | [], g, h, _ => ⟨g, ∅, ∅, rfl, .refl h, Set.empty_subset _⟩
  | [target], g, _, _ => by
    rw [if_neg (by cases target.type <;> simp [reducible]), reduceLoop]
    split_ifs <;> exact ⟨_, rfl⟩
  | [target, connector], g, _, _ => by
    rw [if_neg (by cases target.type <;> cases connector.type <;> simp [reducible]), reduceLoop]
    split_ifs <;> exact ⟨_, rfl⟩
  | target :: connector :: src :: rest, g, h, hmem => by
    simp only [List.forall_mem_cons] at hmem
    obtain ⟨htarget, -, hsrc, hrest⟩ := hmem
    rw [reduceLoop, List.map_cons, List.map_cons, List.map_cons]
    cases ht : target.type with
    | IGNORE => simp [reducible]
    | CONNECTOR => simp [reducible]
    | ENTITY =>
      cases hc : connector.type with
      | IGNORE => simp [reducible]
      | ENTITY => simp [reducible]
      | CONNECTOR =>
        cases hs : src.type with
        | IGNORE => simp [reducible]
        | CONNECTOR => simp [reducible]
        | ENTITY =>
          have hspelled : ∀ t ∈ all, t.type = .ENTITY → t.spelling ≠ "" := fun t hin hty he =>
            hall (he ▸ mem_spellings hin hty)
          obtain ⟨g₁, hg₁, hext⟩ := connect_extends h (hspelled src hsrc hs) (hspelled target htarget ht)
          have ih := reduceLoop_reducible hall rest g₁ hext.wf hrest
          have hloop : ∀ r, reduceLoop g₁ rest = r → (do
              let callgraph ← connect g src.spelling target.spelling
              reduceLoop callgraph rest) = r := by
            intro r hr
            rw [hg₁, ok_bind, hr]
          simp only [ne_eq, not_true_eq_false, if_false, reducible]
          split_ifs at ih ⊢ with hred
          · obtain ⟨g', names, calls, hg', hext', hnames⟩ := ih
            refine ⟨g', _, _, hloop _ hg', hext.trans hext', Set.union_subset ?_ hnames⟩
            rintro name (rfl | rfl)
            · exact mem_spellings hsrc hs
            · exact mem_spellings htarget ht
          · obtain ⟨e, he⟩ := ih
            exact ⟨e, hloop _ he⟩

/-- What the parser does, when `expected` is what happens to the kinds of the tokens on its stack. -/
def Follows (g : Callgraph) (all : List ParsedToken) (s : ParseState) (expected : Option (List TokenType)) (r : Except Exn DotParser) :
    Prop :=
  match expected with
  | none => ∃ e, r = .error e
  | some types => ∃ p names calls, r = .ok p ∧ p.state = s ∧ p.seenTokens.map ParsedToken.type = types ∧
      Extends g names calls p.callgraph ∧ names ⊆ spellings all ∧ ∀ t ∈ p.seenTokens, t ∈ all

section
variable {all : List ParsedToken} {p : DotParser}

theorem reduceStack_follows (hall : "" ∉ spellings all) (h : p.callgraph.Wf) (hstack : ∀ t ∈ p.seenTokens, t ∈ all) :
    Follows p.callgraph all p.state (stackStep (p.seenTokens.map ParsedToken.type) .IGNORE) (reduceStack p) := by
  rw [stackStep, reduceStack, List.length_map]
  by_cases hlen : p.seenTokens.length < 3
  · rw [if_pos hlen, if_pos hlen]
    exact ⟨p, ∅, ∅, rfl, rfl, rfl, .refl h, Set.empty_subset _, hstack⟩
  · rw [if_neg hlen, if_neg hlen]
    have hloop := reduceLoop_reducible hall p.seenTokens p.callgraph h hstack
    split_ifs at hloop ⊢ with hred
    · obtain ⟨g', names, calls, hg', hext, hnames⟩ := hloop
      rw [hg']
      exact ⟨_, names, calls, rfl, rfl, rfl, hext, hnames, by simp⟩
    · obtain ⟨e, he⟩ := hloop
      rw [he]
      exact ⟨e, rfl⟩

theorem insertEntity_follows (hall : "" ∉ spellings all) (h : p.callgraph.Wf) {token : ParsedToken} (htoken : token ∈ all)
    (ht : token.type = .ENTITY) {rest : List ParsedToken} (hrest : ∀ t ∈ rest, t ∈ all) :
    Follows p.callgraph all p.state (some (.ENTITY :: rest.map ParsedToken.type)) (do
      let (callgraph, _) ← p.callgraph.getOrInsertNode token.spelling none false false
      return { p with callgraph := callgraph, seenTokens := token :: rest }) := by
  have hname := mem_spellings htoken ht
  obtain ⟨g', i, hg', -, hext⟩ := h.getOrInsertNode_extends (fun he => hall (he ▸ hname)) none false false
  rw [hg', ok_bind]
  refine ⟨_, {token.spelling}, ∅, rfl, rfl, ?_, hext, Set.singleton_subset_iff.mpr hname, ?_⟩
  · rw [List.map_cons, ht]
  · rw [List.forall_mem_cons]
    exact ⟨htoken, hrest⟩

theorem handleEntity_follows (hall : "" ∉ spellings all) (h : p.callgraph.Wf) (hs : p.state = .GRAPH)
    (hstack : ∀ t ∈ p.seenTokens, t ∈ all) {token : ParsedToken} (htoken : token ∈ all) (ht : token.type = .ENTITY) :
    Follows p.callgraph all p.state (stackStep (p.seenTokens.map ParsedToken.type) .ENTITY) (handleEntity p token) := by
  unfold handleEntity
  rw [hs]
  cases hstk : p.seenTokens with
  | nil =>
    have hinsert := insertEntity_follows hall h htoken ht (List.forall_mem_nil (· ∈ all))
    rw [hs] at hinsert
    simpa [ht, stackStep] using hinsert
  | cons top rest =>
    rw [hstk, List.forall_mem_cons] at hstack
    have hinsert := insertEntity_follows hall h htoken ht hstack.2
    rw [hs] at hinsert
    simp only [List.isEmpty_cons, Bool.false_eq_true, if_false, List.map_cons]
    cases htop : top.type with
    | IGNORE => simpa [stackStep] using hinsert
    | ENTITY => simpa [stackStep] using hinsert
    | CONNECTOR =>
      have hreduce := reduceStack_follows (p := { p with seenTokens := token :: top :: rest }) hall h (by
        simp only [List.forall_mem_cons]
        exact ⟨htoken, hstack⟩)
      simp only [List.map_cons, ht, htop, stackStep, List.length_cons, List.length_map, hs] at hreduce
      simp only [if_true, stackStep, List.length_map]
      by_cases hlen : rest.length < 1
      · rw [if_pos (by omega)] at hreduce
        obtain ⟨p', names, calls, hp', hs', htypes, hext, hnames, hin⟩ := hreduce
        rw [if_pos hlen, hp', ok_bind]
        refine ⟨_, names, calls, rfl, hs', ?_, hext, hnames, ?_⟩
        · rw [List.map_cons, htypes, ht]
        · rw [List.forall_mem_cons]
          exact ⟨htoken, hin⟩
      · rw [if_neg (by omega)] at hreduce
        rw [if_neg hlen]
        split_ifs at hreduce ⊢ with hred
        · obtain ⟨p', names, calls, hp', hs', htypes, hext, hnames, hin⟩ := hreduce
          rw [hp', ok_bind]
          refine ⟨_, names, calls, rfl, hs', ?_, hext, hnames, ?_⟩
          · rw [List.map_cons, htypes, ht]
          · rw [List.forall_mem_cons]
            exact ⟨htoken, hin⟩
        · obtain ⟨e, he⟩ := hreduce
          rw [he]
          exact ⟨e, rfl⟩

/-- The state of the parser after an entity. -/
def entityState (s : ParseState) (spelling : String) : ParseState :=
  match s with
  | .INIT => if spelling = "digraph" then .NAME else .INIT
  | .NAME => if spelling ≠ "" then .GRAPH else .NAME
  | .GRAPH => .GRAPH

theorem handleEntity_prologue (hs : p.state ≠ .GRAPH) (token : ParsedToken) :
    handleEntity p token = .ok { p with state := entityState p.state token.spelling } := by
  unfold handleEntity entityState
  obtain ⟨state, callgraph, seenTokens⟩ := p
  cases state with
  | INIT => dsimp only; split_ifs <;> rfl
  | NAME => dsimp only; split_ifs <;> rfl
  | GRAPH => exact absurd rfl hs

theorem stackTypes_cons (s : ParseState) (token : ParsedToken) (tokens : List ParsedToken) : stackTypes s (token :: tokens) =
    if token.type = .ENTITY ∧ s ≠ .GRAPH then stackTypes (entityState s token.spelling) tokens
    else token.type :: stackTypes s tokens := by
  cases s with
  | GRAPH => simp [stackTypes]
  | NAME => simp [stackTypes, entityState]
  | INIT => simp [stackTypes, entityState]

theorem handleToken_follows (hall : "" ∉ spellings all) (h : p.callgraph.Wf) {token : ParsedToken}
    (hprologue : ¬(token.type = .ENTITY ∧ p.state ≠ .GRAPH)) (hstack : ∀ t ∈ p.seenTokens, t ∈ all) (htoken : token ∈ all) :
    Follows p.callgraph all p.state (stackStep (p.seenTokens.map ParsedToken.type) token.type) (handleToken p token) := by
  unfold handleToken
  cases ht : token.type with
  | IGNORE => exact reduceStack_follows hall h hstack
  | ENTITY => exact handleEntity_follows hall h (not_not.mp fun hs => hprologue ⟨ht, hs⟩) hstack htoken ht
  | CONNECTOR =>
    refine ⟨handleConnector p token, ∅, ∅, rfl, rfl, ?_, .refl h, Set.empty_subset _, ?_⟩
    · rw [handleConnector, List.map_cons, ht]
    · rw [handleConnector, List.forall_mem_cons]
      exact ⟨htoken, hstack⟩

/-- A step and the tokens after it. -/
theorem Follows.bind {g : Callgraph} {s : ParseState} {expected : Option (List TokenType)} {r : Except Exn DotParser}
    (h : Follows g all s expected r) {rest : List TokenType → Option (List TokenType)} {next : DotParser → Except Exn DotParser}
    (hnext : ∀ p : DotParser, p.state = s → p.callgraph.Wf → (∀ t ∈ p.seenTokens, t ∈ all) →
      ∃ s', Follows p.callgraph all s' (rest (p.seenTokens.map ParsedToken.type)) (next p)) :
    ∃ s', Follows g all s' (expected.bind rest) (r >>= next) := by
  cases expected with
  | none =>
    obtain ⟨e, rfl⟩ := h
    exact ⟨s, e, rfl⟩
  | some types =>
    obtain ⟨p, names, calls, rfl, hs, rfl, hext, hnames, hin⟩ := h
    obtain ⟨s', hrest⟩ := hnext p hs hext.wf hin
    refine ⟨s', ?_⟩
    rw [Option.bind_some, ok_bind]
    cases hr : rest (p.seenTokens.map ParsedToken.type) with
    | none =>
      rw [hr] at hrest
      exact hrest
    | some types' =>
      rw [hr] at hrest
      obtain ⟨p', names', calls', hp', hs', htypes, hext', hnames', hin'⟩ := hrest
      exact ⟨p', _, _, hp', hs', htypes, hext.trans hext', Set.union_subset hnames hnames', hin'⟩

/-- A whole run, up to the state in which it ends. -/
theorem run_follows (hall : "" ∉ spellings all) (tokens : List ParsedToken) (htokens : ∀ t ∈ tokens, t ∈ all)
    (h : p.callgraph.Wf) (hstack : ∀ t ∈ p.seenTokens, t ∈ all) :
    ∃ s, Follows p.callgraph all s ((stackTypes p.state tokens).foldlM stackStep (p.seenTokens.map ParsedToken.type))
      (tokens.foldlM handleToken p) := by
  induction tokens generalizing p with
  | nil =>
    refine ⟨p.state, p, ∅, ∅, rfl, rfl, ?_, .refl h, Set.empty_subset _, hstack⟩
    cases p.state <;> rfl
  | cons token tokens ih =>
    rw [List.forall_mem_cons] at htokens
    have hnext : ∀ s, ∀ p' : DotParser, p'.state = s → p'.callgraph.Wf → (∀ t ∈ p'.seenTokens, t ∈ all) →
        ∃ s', Follows p'.callgraph all s' ((stackTypes s tokens).foldlM stackStep (p'.seenTokens.map ParsedToken.type))
          (tokens.foldlM handleToken p') := by
      rintro s p' rfl hwf hin
      exact ih htokens.2 hwf hin
    rw [stackTypes_cons]
    by_cases hprologue : token.type = .ENTITY ∧ p.state ≠ .GRAPH
    · rw [if_pos hprologue, List.foldlM_cons, handleToken, hprologue.1]
      dsimp only
      rw [handleEntity_prologue hprologue.2, ok_bind]
      exact hnext _ { p with state := entityState p.state token.spelling } rfl h hstack
    · rw [if_neg hprologue, List.foldlM_cons, List.foldlM_cons]
      exact (handleToken_follows hall h hprologue hstack htokens.1).bind (hnext p.state)

end

/-! ## Every input -/

/-- The parser gets through the lines, and new nodes have the spelling of an entity. -/
def Safe (ls : List Char → LastSeen) (g : Callgraph) (lines : List (List Char)) : Prop :=
  ∃ p, lines.foldlM (fun p line => parse (ls line) p line) ⟨.INIT, g, []⟩ = .ok p ∧
    ∀ i name, p.callgraph.nameOf i = some name → g.nameOf i = some name ∨
      ∃ line ∈ lines, ⟨.ENTITY, name⟩ ∈ tokenize (ls line) line

/-- The tokens of the lines. -/
def allTokens (ls : List Char → LastSeen) (lines : List (List Char)) : List ParsedToken :=
  lines.flatMap fun line => tokenize (ls line) line

theorem tokenOf_spelling {str : String} {token : ParsedToken} (h : tokenOf str = some token) : token.spelling = str := by
  unfold tokenOf at h
  split_ifs at h <;> cases h <;> rfl

theorem tokenOf_entity {str : String} {token : ParsedToken} (h : tokenOf str = some token) (ht : token.type = .ENTITY) :
    ∃ c rest, str.toList = c :: rest ∧ c.isAlphanum = true := by
  unfold tokenOf at h
  split_ifs at h with halnum
  · obtain ⟨c, hc, hal⟩ := (Option.any_eq_true _ _).mp halnum
    obtain ⟨rest, hrest⟩ := List.head?_eq_some_iff.mp hc
    exact ⟨c, rest, hrest, hal⟩
  · cases h
    cases ht
  · cases h
    cases ht

theorem entity_tokenize {ls : LastSeen} {line : List Char} {s : String} (h : ⟨.ENTITY, s⟩ ∈ tokenize ls line) :
    s ∈ splitToTokenStrings ls line ∧ ∃ c rest, s.toList = c :: rest ∧ c.isAlphanum = true := by
  obtain ⟨str, hstr, htoken⟩ := List.mem_filterMap.mp h
  have hspelling := tokenOf_spelling htoken
  subst hspelling
  exact ⟨hstr, tokenOf_entity htoken rfl⟩

theorem empty_notMem_spellings (ls : List Char → LastSeen) (lines : List (List Char)) : "" ∉ spellings (allTokens ls lines) := by
  intro h
  obtain ⟨line, -, hmem⟩ := List.mem_flatMap.mp h
  obtain ⟨-, c, rest, hc, -⟩ := entity_tokenize hmem
  cases hc

theorem foldlM_parse (ls : List Char → LastSeen) (lines : List (List Char)) (p : DotParser) :
    lines.foldlM (fun p line => parse (ls line) p line) p = (allTokens ls lines).foldlM handleToken p := by
  rw [allTokens, foldlM_flatMap]
  rfl

/-- The parser either fails an assertion or ends with new nodes for entities only. -/
theorem parse_cases (ls : List Char → LastSeen) {g : Callgraph} (h : g.Wf) (lines : List (List Char)) :
    if accepts [] (stackTypes .INIT (allTokens ls lines)) then
      ∃ p names calls, lines.foldlM (fun p line => parse (ls line) p line) ⟨.INIT, g, []⟩ = .ok p ∧
        Extends g names calls p.callgraph ∧ names ⊆ spellings (allTokens ls lines)
    else ∃ e, lines.foldlM (fun p line => parse (ls line) p line) ⟨.INIT, g, []⟩ = .error e := by
  obtain ⟨s, hrun⟩ := run_follows (p := ⟨.INIT, g, []⟩) (empty_notMem_spellings ls lines) (allTokens ls lines)
    (fun t ht => ht) h (by simp)
  dsimp only at hrun
  rw [List.map_nil] at hrun
  rw [foldlM_parse]
  cases hexpected : (stackTypes .INIT (allTokens ls lines)).foldlM stackStep [] with
  | none =>
    rw [hexpected] at hrun
    rw [if_neg fun haccepts => by rw [accepts, hexpected] at haccepts; cases haccepts]
    exact hrun
  | some types =>
    rw [hexpected] at hrun
    obtain ⟨p, names, calls, hp, -, -, hext, hnames, -⟩ := hrun
    have haccepts : accepts [] (stackTypes .INIT (allTokens ls lines)) := by
      rw [accepts, hexpected]
      rfl
    rw [if_pos haccepts]
    exact ⟨p, names, calls, hp, hext, hnames⟩

theorem Safe.accepted {ls : List Char → LastSeen} {g : Callgraph} (h : g.Wf) {lines : List (List Char)}
    (hsafe : Safe ls g lines) : Accepted (stackTypes .INIT (allTokens ls lines)) := by
  rw [← accepts_nil_iff]
  have hcases := parse_cases ls h lines
  by_contra hrejected
  rw [if_neg hrejected] at hcases
  obtain ⟨e, he⟩ := hcases
  obtain ⟨p, hp, -⟩ := hsafe
  rw [he] at hp
  cases hp

/-- The parser is safe on exactly the inputs whose kinds are accepted. -/
theorem parse_safe_iff (ls : List Char → LastSeen) {g : Callgraph} (h : g.Wf) (lines : List (List Char)) :
    Safe ls g lines ↔ Accepted (stackTypes .INIT (allTokens ls lines)) := by
  refine ⟨Safe.accepted h, fun haccepted => ?_⟩
  have hcases := parse_cases ls h lines
  rw [if_pos ((accepts_nil_iff _).mpr haccepted)] at hcases
  obtain ⟨p, names, calls, hp, hext, hnames⟩ := hcases
  refine ⟨p, hp, fun i name hi => (hext.new i name hi).imp_right fun hin => ?_⟩
  exact List.mem_flatMap.mp (hnames hin)

theorem parse_safe_statement : Safe (fun _ => .CNTRL) Callgraph.empty ["digraph g \x7b a -> b -> c \x7d".toList] := by
  refine (parse_safe_iff (fun _ => .CNTRL) .empty _).mpr (.inl ?_)
  have htokens : allTokens (fun _ => .CNTRL) ["digraph g \x7b a -> b -> c \x7d".toList] =
      [⟨.ENTITY, "digraph"⟩, ⟨.ENTITY, "g"⟩, ⟨.IGNORE, "\x7b"⟩, ⟨.ENTITY, "a"⟩, ⟨.CONNECTOR, "->"⟩, ⟨.ENTITY, "b"⟩,
        ⟨.CONNECTOR, "->"⟩, ⟨.ENTITY, "c"⟩] := by decide
  rw [htokens]
  simp [stackTypes, Paired]

/-- A doubled connector fails the assertion on the source element. -/
theorem parse_doubledConnector : ¬ Safe (fun _ => .CNTRL) Callgraph.empty ["digraph g \x7b a -> -> b \x7d".toList] := by
  have htokens : allTokens (fun _ => .CNTRL) ["digraph g \x7b a -> -> b \x7d".toList] =
      [⟨.ENTITY, "digraph"⟩, ⟨.ENTITY, "g"⟩, ⟨.IGNORE, "\x7b"⟩, ⟨.ENTITY, "a"⟩, ⟨.CONNECTOR, "->"⟩, ⟨.CONNECTOR, "->"⟩,
        ⟨.ENTITY, "b"⟩] := by decide
  intro hsafe
  have haccepted := hsafe.accepted .empty
  rw [htokens] at haccepted
  simp [stackTypes, Accepted, Paired, Quiet, LeadingConnector] at haccepted

end MetaCG.Dot
