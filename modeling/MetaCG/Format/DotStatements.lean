import MetaCG.Format.DotGrammar

/-! A `digraph` with its statements, written out with whitespace after every token.

A name is kept in one piece by the tokenizer: letters followed by digits are such names. Braces and quotes become
tokens that the parser ignores. -/
namespace MetaCG.Dot
open Foundations Callgraph
set_option autoImplicit false
set_option maxHeartbeats 250000
set_option maxRecDepth 120000

/-! ## The text -/

/-- A name, which may stand in double quotes. -/
structure Name where
  word : String
  whole : Unbroken word
  quoted : Bool

/-- `n1 -> n2 -> ... -> nk` -/
structure Statement where
  first : Name
  rest : List Name

namespace Statement

def names (s : Statement) : List String := s.first.word :: s.rest.map Name.word

def calls (s : Statement) : List (String × String) := s.names.zip s.names.tail

end Statement

inductive Text where
  | digraph
  | name (n : Name)
  | arrow
  | opening
  | closing

namespace Text

def spelling : Text → String
  | .digraph => "digraph"
  | .name n => if n.quoted then "\"" ++ n.word ++ "\"" else n.word
  | .arrow => "->"
  | .opening => "\x7b"
  | .closing => "\x7d"

/-- The strings that the tokenizer makes of it. -/
def strings : Text → List String
  | .digraph => ["digraph"]
  | .name n => if n.quoted then ["\"", n.word, "\""] else [n.word]
  | .arrow => ["->"]
  | .opening => ["\x7b"]
  | .closing => ["\x7d"]

def tokens : Text → List ParsedToken
  | .digraph => [⟨.ENTITY, "digraph"⟩]
  | .name n => if n.quoted then [⟨.IGNORE, "\""⟩, ⟨.ENTITY, n.word⟩, ⟨.IGNORE, "\""⟩] else [⟨.ENTITY, n.word⟩]
  | .arrow => [⟨.CONNECTOR, "->"⟩]
  | .opening => [⟨.IGNORE, "\x7b"⟩]
  | .closing => [⟨.IGNORE, "\x7d"⟩]

end Text

def Statement.texts (s : Statement) : List Text := .name s.first :: s.rest.flatMap fun n => [.arrow, .name n]

def digraphTexts (graphName : Name) (statements : List Statement) : List Text :=
  [.digraph, .name graphName, .opening] ++ statements.flatMap Statement.texts ++ [.closing]

/-- The texts in their order, each followed by at least one whitespace character. -/
inductive LaidOut : List Text → List Char → Prop
  | nil : LaidOut [] []
  | cons {t : Text} {texts : List Text} {blank : Char} {blanks line : List Char} (hblank : isspace blank = true)
      (hblanks : ∀ c ∈ blanks, isspace c = true) (h : LaidOut texts line) :
      LaidOut (t :: texts) (t.spelling.toList ++ blank :: (blanks ++ line))

/-! ## Scanning the text -/

def Blank (pending : List Char) : Prop := ∀ c ∈ pending, isspace c = true

theorem isDelimiter_of_isspace {c : Char} (h : isspace c = true) : isDelimiter c = true := by simp [isDelimiter, h]

theorem commit_blank {pending : List Char} (h : Blank pending) (l : List Char) (acc : List String) :
    commit (pending ++ l) acc = commit l acc := by
  have hnone : pending.filter (fun c => !isspace c) = [] := by
    rw [List.filter_eq_nil_iff]
    intro c hc
    simp [h c hc]
  rw [commit, commit, List.filter_append, hnone, List.nil_append]

theorem commit_of_blank {pending : List Char} (h : Blank pending) (acc : List String) : commit pending acc = acc := by
  have happ := commit_blank h [] acc
  rw [List.append_nil] at happ
  exact happ

theorem blank_singleton {c : Char} (h : isspace c = true) : Blank [c] := by
  intro x hx
  rw [List.mem_singleton.mp hx]
  exact h

theorem scan_blanks {blanks : List Char} (hblanks : ∀ c ∈ blanks, isspace c = true) {pending : List Char} (h : Blank pending)
    (acc : List String) (rest : List Char) :
    ∃ pending', Blank pending' ∧ scan pending .CNTRL acc (blanks ++ rest) = scan pending' .CNTRL acc rest := by
  induction blanks generalizing pending with
  | nil => exact ⟨pending, h, rfl⟩
  | cons c blanks ih =>
    rw [List.forall_mem_cons] at hblanks
    obtain ⟨pending', hpending', hscan⟩ := ih hblanks.2 (blank_singleton hblanks.1)
    refine ⟨pending', hpending', ?_⟩
    rw [List.cons_append, scan_delimiter (isDelimiter_of_isspace hblanks.1), commit_of_blank h, hscan]

/-- A name and the character after it. -/
theorem scan_name {s : String} (hs : Unbroken s) {d : Char} (hd : isDelimiter d = true) (pending : List Char)
    (acc : List String) (rest : List Char) :
    scan pending .CNTRL acc (s.toList ++ d :: rest) = scan [d] .CNTRL (commit pending acc ++ [s]) rest := by
  obtain ⟨ls', hscan⟩ := scan_unbroken hs pending acc (d :: rest)
  rw [hscan, scan_delimiter hd, commit_unbroken hs]

theorem digraph_unbroken : Unbroken "digraph" :=
  (word_of_all "digraph".toList [] (by decide) (by decide) (by decide) (by decide)).unbroken

/-- A character that is neither letter, digit nor delimiter waits with those before it. -/
theorem scan_other {c : Char} (hd : isDelimiter c = false) (hn : c.isDigit = false) (ha : c.isAlpha = false)
    (pending : List Char) (ls : LastSeen) (acc : List String) (rest : List Char) :
    scan pending ls acc (c :: rest) = scan (pending ++ [c]) ls acc rest := by
  rw [scan, if_neg (by simp [hd]), if_neg (by simp [hn]), if_neg (by simp [ha])]

/-- One token of the text and the whitespace after it. -/
theorem Text.scan (t : Text) {pending : List Char} (h : Blank pending) {blank : Char} (hblank : isspace blank = true)
    (acc : List String) (rest : List Char) :
    Dot.scan pending .CNTRL acc (t.spelling.toList ++ blank :: rest) = Dot.scan [blank] .CNTRL (acc ++ t.strings) rest := by
  have hdelim := isDelimiter_of_isspace hblank
  have hpunct : ∀ c : Char, isDelimiter c = true → commit [c] acc = acc ++ [String.ofList [c]] →
      Dot.scan pending .CNTRL acc ([c] ++ blank :: rest) = Dot.scan [blank] .CNTRL (acc ++ [String.ofList [c]]) rest := by
    intro c hc hcommit
    rw [List.singleton_append, scan_delimiter hc, commit_of_blank h, scan_delimiter hdelim, hcommit]
  cases t with
  | digraph =>
    rw [spelling, scan_name digraph_unbroken hdelim, commit_of_blank h]
    rfl
  | name n =>
    rw [spelling, strings]
    split_ifs
    · have hquote : ∀ acc, commit ['\"'] acc = acc ++ ["\""] := by
        intro acc
        simp [commit, isspace]
      have hchars : ("\"" ++ n.word ++ "\"").toList ++ blank :: rest = '\"' :: (n.word.toList ++ '\"' :: blank :: rest) := by
        simp [String.toList_append]
      rw [hchars, scan_delimiter (by decide), commit_of_blank h, scan_name n.whole (by decide), scan_delimiter hdelim,
        hquote, hquote]
      simp
    · rw [scan_name n.whole hdelim, commit_of_blank h]
  | arrow =>
    change Dot.scan pending .CNTRL acc ('-' :: '>' :: blank :: rest) = _
    rw [scan_other (by decide) (by decide) (by decide), scan_other (by decide) (by decide) (by decide),
      scan_delimiter hdelim, List.append_assoc, commit_blank h]
    rfl
  | opening => exact hpunct '\x7b' (by decide) (by simp [commit, isspace])
  | closing => exact hpunct '\x7d' (by decide) (by simp [commit, isspace])

theorem LaidOut.scan {texts : List Text} {line : List Char} (h : LaidOut texts line) {pending : List Char}
    (hpending : Blank pending) (acc : List String) :
    Dot.scan pending .CNTRL acc line = acc ++ texts.flatMap Text.strings := by
  induction h generalizing pending acc with
  | nil => rw [Dot.scan, List.flatMap_nil, List.append_nil]
  | cons hblank hblanks _ ih =>
    obtain ⟨pending', hpending', hscan⟩ := scan_blanks hblanks (blank_singleton hblank) (acc ++ Text.strings _) _
    rw [Text.scan _ hpending hblank, hscan, ih hpending', List.flatMap_cons, List.append_assoc]

theorem Text.filterMap_strings (t : Text) : t.strings.filterMap tokenOf = t.tokens := by
  have hquote : tokenOf "\"" = some ⟨.IGNORE, "\""⟩ := by decide
  cases t with
  | digraph => decide
  | name n =>
    rw [strings, tokens]
    split_ifs
    · rw [List.filterMap_cons_some hquote, List.filterMap_cons_some (tokenOf_unbroken n.whole),
        List.filterMap_cons_some hquote, List.filterMap_nil]
    · rw [List.filterMap_cons_some (tokenOf_unbroken n.whole), List.filterMap_nil]
  | arrow => decide
  | opening => decide
  | closing => decide

/-- What is found in `ls` at the start does not matter before a letter. -/
theorem scan_letter (ls : LastSeen) {c : Char} (hc : c.isAlpha = true) (rest : List Char) :
    scan [] ls [] (c :: rest) = scan [c] .CHAR [] rest := by
  rw [scan, if_neg (by simp [isDelimiter_eq_false (.inl hc)]), if_neg (by simp [isDigit_of_isAlpha hc]), if_pos hc]
  cases ls <;> rfl

theorem LaidOut.tokenize {texts : List Text} {line : List Char} (h : LaidOut (.digraph :: texts) line) (ls : LastSeen) :
    tokenize ls line = (Text.digraph :: texts).flatMap Text.tokens := by
  have hfirst : Dot.scan [] ls [] line = Dot.scan [] .CNTRL [] line := by
    cases h with
    | cons hblank hblanks hrest => exact (scan_letter ls (by decide) _).trans (scan_letter .CNTRL (by decide) _).symm
  have hnil : Blank [] := fun c hc => absurd hc List.not_mem_nil
  rw [Dot.tokenize, splitToTokenStrings_eq, hfirst, h.scan hnil, List.nil_append, List.filterMap_flatMap]
  exact congrArg (fun f => List.flatMap f _) (funext Text.filterMap_strings)

/-! ## The tokens of statements -/

section
variable (n : Name) (s : Statement) (r : List ParsedToken)

theorem paired_name (b : Bool) : Paired b (((Text.name n).tokens ++ r).map ParsedToken.type) ↔
    Paired true (r.map ParsedToken.type) := by
  rw [Text.tokens]
  split_ifs <;> cases b <;> simp [Paired]

theorem calls_name (src : Source) : src.calls ((Text.name n).tokens ++ r) =
    src.calls [⟨.ENTITY, n.word⟩] ++ (Source.entity n.word).calls r := by
  rw [Text.tokens]
  split_ifs <;> cases src <;> simp [Source.calls]

theorem entity_mem_name (name : String) : ⟨.ENTITY, name⟩ ∈ (Text.name n).tokens ↔ name = n.word := by
  rw [Text.tokens]
  split_ifs <;> simp

def Statement.tokens : List ParsedToken := s.texts.flatMap Text.tokens

theorem Statement.tokens_eq : s.tokens =
    (Text.name s.first).tokens ++ s.rest.flatMap fun n => ⟨.CONNECTOR, "->"⟩ :: (Text.name n).tokens := by
  have hpair : ∀ n, [Text.arrow, .name n].flatMap Text.tokens = ⟨.CONNECTOR, "->"⟩ :: (Text.name n).tokens := by
    intro n
    rw [List.flatMap_cons, List.flatMap_cons, List.flatMap_nil, List.append_nil]
    rfl
  rw [Statement.tokens, Statement.texts, List.flatMap_cons, List.flatMap_assoc]
  simp only [hpair]

theorem paired_rest (rest : List Name) :
    Paired true (((rest.flatMap fun n => ⟨.CONNECTOR, "->"⟩ :: (Text.name n).tokens) ++ r).map ParsedToken.type) ↔
      Paired true (r.map ParsedToken.type) := by
  induction rest with
  | nil => rfl
  | cons n rest ih =>
    rw [List.flatMap_cons, List.cons_append, List.cons_append, List.map_cons, Paired, List.append_assoc, paired_name]
    exact ih

theorem Statement.paired (b : Bool) : Paired b ((s.tokens ++ r).map ParsedToken.type) ↔ Paired true (r.map ParsedToken.type) := by
  rw [s.tokens_eq, List.append_assoc, paired_name, paired_rest]

theorem calls_rest (rest : List Name) (a : String) :
    ∃ last, (Source.entity a).calls ((rest.flatMap fun n => ⟨.CONNECTOR, "->"⟩ :: (Text.name n).tokens) ++ r) =
      (a :: rest.map Name.word).zip (rest.map Name.word) ++ (Source.entity last).calls r := by
  induction rest generalizing a with
  | nil => exact ⟨a, rfl⟩
  | cons n rest ih =>
    obtain ⟨last, hrest⟩ := ih n.word
    refine ⟨last, ?_⟩
    rw [List.flatMap_cons, List.cons_append, List.cons_append, Source.calls, List.append_assoc, calls_name, hrest]
    rfl

/-- A statement makes the calls between its neighbours, and none with what is before it. -/
theorem Statement.calls_tokens (src : Source) (hsrc : ∀ a, src ≠ .connected a) :
    ∃ last, src.calls (s.tokens ++ r) = s.calls ++ (Source.entity last).calls r := by
  obtain ⟨last, hrest⟩ := calls_rest r s.rest s.first.word
  refine ⟨last, ?_⟩
  have hfirst : src.calls [⟨.ENTITY, s.first.word⟩] = [] := by
    cases src with
    | none => rfl
    | entity a => rfl
    | connected a => exact absurd rfl (hsrc a)
  rw [s.tokens_eq, List.append_assoc, calls_name, hfirst, List.nil_append, hrest]
  rfl

theorem Statement.entity_mem (name : String) : ⟨.ENTITY, name⟩ ∈ s.tokens ↔ name ∈ s.names := by
  rw [s.tokens_eq, List.mem_append, entity_mem_name, List.mem_flatMap, Statement.names, List.mem_cons, List.mem_map]
  refine or_congr_right (exists_congr fun n => and_congr_right fun _ => ?_)
  rw [List.mem_cons, entity_mem_name]
  simp [eq_comm]

end

section
variable (statements : List Statement)

theorem paired_statements (b : Bool) (r : List ParsedToken) (hr : ∀ b, Paired b (r.map ParsedToken.type)) :
    Paired b ((statements.flatMap Statement.tokens ++ r).map ParsedToken.type) := by
  induction statements generalizing b with
  | nil => exact hr b
  | cons s statements ih =>
    rw [List.flatMap_cons, List.append_assoc, s.paired]
    exact ih true

theorem calls_statements (src : Source) (hsrc : ∀ a, src ≠ .connected a) (r : List ParsedToken)
    (hr : ∀ src : Source, src.calls r = []) :
    src.calls (statements.flatMap Statement.tokens ++ r) = statements.flatMap Statement.calls := by
  induction statements generalizing src with
  | nil => exact hr src
  | cons s statements ih =>
    obtain ⟨last, hs⟩ := s.calls_tokens (statements.flatMap Statement.tokens ++ r) src hsrc
    rw [List.flatMap_cons, List.append_assoc, hs, ih (.entity last) (fun a => by simp), List.flatMap_cons]

/-! ## The parser over a digraph -/

/-- The keyword, the name of the graph and the brace. -/
theorem run_prologue (graphName : Name) :
    ([Text.digraph, .name graphName, .opening].flatMap Text.tokens).foldlM handleToken ⟨.INIT, Callgraph.empty, []⟩ =
      .ok ⟨.GRAPH, Callgraph.empty, []⟩ := by
  have hne := graphName.whole.ne_empty
  simp only [List.flatMap_cons, List.flatMap_nil, List.append_nil, Text.tokens]
  split_ifs <;> simp [handleToken, handleEntity, reduceStack, hne]

theorem digraphTexts_tokens (graphName : Name) : (digraphTexts graphName statements).flatMap Text.tokens =
    [Text.digraph, .name graphName, .opening].flatMap Text.tokens ++
      (statements.flatMap Statement.tokens ++ Text.closing.tokens) := by
  rw [digraphTexts, List.flatMap_append, List.flatMap_append, List.append_assoc, List.flatMap_assoc]
  rfl

/-- The parser accepts a digraph and builds its graph: one node for each name, and the calls of the statements. -/
theorem parse_digraph (graphName : Name) (ls : LastSeen) {line : List Char}
    (h : LaidOut (digraphTexts graphName statements) line) :
    ∃ p, parse ls ⟨.INIT, Callgraph.empty, []⟩ line = .ok p ∧ p.callgraph.Wf ∧
      (∀ name, (p.callgraph.getNodesNamed name).length = if name ∈ statements.flatMap Statement.names then 1 else 0) ∧
      p.callgraph.callsNamed = {e | e ∈ statements.flatMap Statement.calls} := by
  have htokens : tokenize ls line = (digraphTexts graphName statements).flatMap Text.tokens := h.tokenize ls
  have hempty : "" ∉ spellings (tokenize ls line) := by
    intro hmem
    obtain ⟨-, c, rest, hc, -⟩ := entity_tokenize hmem
    cases hc
  have hempty' : "" ∉ spellings (statements.flatMap Statement.tokens ++ Text.closing.tokens) := by
    intro hmem
    rw [htokens, digraphTexts_tokens] at hempty
    exact hempty (List.mem_append_right _ hmem)
  have hreading : Reading .none ⟨.GRAPH, Callgraph.empty, []⟩ := ⟨rfl, .empty, rfl⟩
  have hpaired : Paired Source.none.isEntity ((statements.flatMap Statement.tokens ++ Text.closing.tokens).map
      ParsedToken.type) := paired_statements statements false _ fun b => by cases b <;> exact trivial
  obtain ⟨p, hp, hext⟩ := hreading.run _ hempty' hpaired
  have hspelled : ∀ name, name ∈ spellings (statements.flatMap Statement.tokens ++ Text.closing.tokens) ↔
      name ∈ statements.flatMap Statement.names := by
    intro name
    rw [spellings, Set.mem_ofPred_eq, List.mem_append, List.mem_flatMap, List.mem_flatMap]
    simp [Statement.entity_mem, Text.tokens]
  refine ⟨p, ?_, hext.wf, fun name => ?_, ?_⟩
  · rw [parse, htokens, digraphTexts_tokens, List.foldlM_append, run_prologue, ok_bind, hp]
  · split_ifs with hname
    · exact hext.named name ((hspelled name).mpr hname)
    · exact hext.others name fun hin => hname ((hspelled name).mp hin)
  · rw [hext.calls, calls_statements statements .none (fun a => by simp) _ fun src => by cases src <;> rfl]
    have hnone : callsNamed Callgraph.empty = ∅ := by simp [callsNamed, Callgraph.empty]
    rw [hnone, Set.empty_union]

end

theorem laidOut_blanks (texts : List Text) : LaidOut texts (texts.flatMap fun t => t.spelling.toList ++ [' ']) := by
  induction texts with
  | nil => exact .nil
  | cons t texts ih =>
    have h : LaidOut (t :: texts) (t.spelling.toList ++ ' ' :: ([] ++ texts.flatMap fun t => t.spelling.toList ++ [' '])) :=
      .cons (by decide) (List.forall_mem_nil _) ih
    rw [List.flatMap_cons, List.append_assoc]
    exact h

theorem parse_digraph_pair : ∃ a b : Name, (digraphTexts a [⟨a, [b]⟩]).flatMap (fun t => t.spelling.toList ++ [' ']) =
      "digraph a1 \x7b a1 -> \"b\" \x7d ".toList ∧
    ∃ p, parse .CHAR ⟨.INIT, Callgraph.empty, []⟩ "digraph a1 \x7b a1 -> \"b\" \x7d ".toList = .ok p ∧
      (p.callgraph.getNodesNamed "b").length = 1 ∧ p.callgraph.callsNamed = {("a1", "b")} := by
  have ha : Word "a1" := word_of_all ['a'] ['1'] (by decide) (by decide) (by decide) (by decide)
  have hb : Word "b" := word_of_all ['b'] [] (by decide) (by decide) (by decide) (by decide)
  have hline : (digraphTexts ⟨"a1", ha.unbroken, false⟩ [⟨⟨"a1", ha.unbroken, false⟩, [⟨"b", hb.unbroken, true⟩]⟩]).flatMap
      (fun t => t.spelling.toList ++ [' ']) = "digraph a1 \x7b a1 -> \"b\" \x7d ".toList := by
    simp [digraphTexts, Statement.texts, Text.spelling]
  refine ⟨⟨"a1", ha.unbroken, false⟩, ⟨"b", hb.unbroken, true⟩, hline, ?_⟩
  obtain ⟨p, hp, -, hnames, hcalls⟩ := parse_digraph [⟨⟨"a1", ha.unbroken, false⟩, [⟨"b", hb.unbroken, true⟩]⟩]
    ⟨"a1", ha.unbroken, false⟩ .CHAR (laidOut_blanks _)
  rw [hline] at hp
  refine ⟨p, hp, hnames "b", ?_⟩
  rw [hcalls]
  simp [Statement.calls, Statement.names]

end MetaCG.Dot
