import MetaCG.Format.DotGrammar

/-! Which identifiers the tokenizer keeps whole.

`ls` is set to `DIGIT` by the digits inside a name too, so a letter after a digit begins a new token; an underscore
does not begin one. -/
namespace MetaCG.Dot
open Foundations Callgraph
set_option autoImplicit false
set_option maxHeartbeats 250000
set_option maxRecDepth 120000

/-! ## Scanning part of a line -/

theorem commit_append (pending : List Char) (acc acc' : List String) :
    commit pending (acc ++ acc') = acc ++ commit pending acc' := by
  unfold commit
  dsimp only
  split_ifs
  · rfl
  · rw [List.append_assoc]

theorem scan_acc (rest pending : List Char) (ls : LastSeen) (acc : List String) :
    scan pending ls acc rest = acc ++ scan pending ls [] rest := by
  induction rest generalizing pending ls acc with
  | nil => rw [scan, scan, List.append_nil]
  | cons c rest ih =>
    have hcommit : commit pending acc = acc ++ commit pending [] := by
      have happ := commit_append pending acc []
      rw [List.append_nil] at happ
      exact happ
    rw [scan, scan]
    split_ifs
    · rw [ih, ih _ _ (commit pending []), hcommit, List.append_assoc]
    · exact ih _ _ acc
    · rw [ih, ih _ _ (commit pending []), hcommit, List.append_assoc]
    · exact ih _ _ acc
    · exact ih _ _ acc

/-- A delimiter divides the work. -/
theorem scan_upTo {d : Char} (hd : isDelimiter d = true) (pre pending : List Char) (ls : LastSeen) (acc : List String)
    (rest : List Char) : scan pending ls acc (pre ++ d :: rest) = scan [d] .CNTRL (scan pending ls acc (pre ++ [d])) rest := by
  induction pre generalizing pending ls acc with
  | nil =>
    rw [List.nil_append, List.nil_append, scan_delimiter hd, scan_delimiter hd, scan]
  | cons c pre ih =>
    rw [List.cons_append, List.cons_append, scan, scan]
    split_ifs <;> exact ih _ _ _

/-! ## No letter after a digit -/

/-- No letter follows a digit. -/
def Together (l : List Char) : Prop := l.Pairwise fun c d => c.isDigit = true → d.isAlpha = false

theorem Together.append_nonAlpha {l : List Char} (h : Together l) {c : Char} (hc : c.isAlpha = false) : Together (l ++ [c]) := by
  refine List.pairwise_append.mpr ⟨h, List.pairwise_singleton _ c, fun x _ y hy _ => ?_⟩
  rw [List.mem_singleton.mp hy]
  exact hc

theorem Together.append_nonDigit {l : List Char} (h : Together l) (hl : ∀ c ∈ l, c.isDigit = false) (c : Char) :
    Together (l ++ [c]) := by
  refine List.pairwise_append.mpr ⟨h, List.pairwise_singleton _ c, fun x hx y _ hdigit => ?_⟩
  rw [hl x hx] at hdigit
  cases hdigit

theorem together_singleton (c : Char) : Together [c] := List.pairwise_singleton _ c

theorem together_commit {pending : List Char} {acc : List String} (h : Together pending) (hacc : ∀ s ∈ acc, Together s.toList) :
    ∀ s ∈ commit pending acc, Together s.toList := by
  unfold commit
  dsimp only
  split_ifs
  · exact hacc
  · intro s hs
    rcases List.mem_append.mp hs with hs | hs
    · exact hacc s hs
    · rw [List.mem_singleton.mp hs, String.toList_ofList]
      exact h.sublist List.filter_sublist

/-- While the last character seen is a letter, the pending token has no digit. -/
theorem together_scan (line : List Char) : ∀ (pending : List Char) (ls : LastSeen) (acc : List String), Together pending →
    (ls = .CHAR → ∀ c ∈ pending, c.isDigit = false) → (∀ s ∈ acc, Together s.toList) →
    ∀ s ∈ scan pending ls acc line, Together s.toList := by
  induction line with
  | nil => exact fun pending ls acc _ _ hacc => hacc
  | cons c line ih =>
    intro pending ls acc hpending hls hacc
    rw [scan]
    split_ifs with hdelim hdigit halpha hcut
    · exact ih [c] .CNTRL _ (together_singleton c) (fun he => by cases he) (together_commit hpending hacc)
    · exact ih _ .DIGIT acc (hpending.append_nonAlpha (isAlpha_of_isDigit hdigit)) (fun he => by cases he) hacc
    · refine ih [c] .CHAR _ (together_singleton c) (fun _ x hx => ?_) (together_commit hpending hacc)
      rw [List.mem_singleton.mp hx]
      exact isDigit_of_isAlpha halpha
    · have hchar : ls = .CHAR := by cases ls <;> simp at hcut ⊢
      refine ih _ .CHAR acc (hpending.append_nonDigit (hls hchar) c) (fun _ x hx => ?_) hacc
      rcases List.mem_append.mp hx with hx | hx
      · exact hls hchar x hx
      · rw [List.mem_singleton.mp hx]
        exact isDigit_of_isAlpha halpha
    · refine ih _ ls acc (hpending.append_nonAlpha (by simpa using halpha)) (fun hchar x hx => ?_) hacc
      rcases List.mem_append.mp hx with hx | hx
      · exact hls hchar x hx
      · rw [List.mem_singleton.mp hx]
        simpa using hdigit

/-- No token of any line has a letter after a digit. -/
theorem together_of_entity {ls : LastSeen} {line : List Char} {s : String} (h : ⟨.ENTITY, s⟩ ∈ tokenize ls line) :
    Together s.toList := by
  obtain ⟨hsplit, -⟩ := entity_tokenize h
  rw [splitToTokenStrings_eq] at hsplit
  exact together_scan line [] ls [] List.Pairwise.nil (fun _ c hc => absurd hc List.not_mem_nil) (by simp) s hsplit

/-! ## Identifiers -/

/-- Letters, digits and underscores, of which the first is not a digit. -/
def Identifier (s : String) : Prop :=
  s.toList.head?.any (fun c => c.isAlpha || c = '_') = true ∧ ∀ c ∈ s.toList, (c.isAlpha || c.isDigit || c = '_') = true

instance (s : String) : Decidable (Identifier s) :=
  @instDecidableAnd _ _ inferInstance (List.decidableBAll _ _)

/-- Whitespace or a double quote. -/
def Separator (c : Char) : Prop := isspace c = true ∨ c = '\"'

theorem Separator.isDelimiter {c : Char} (h : Separator c) : isDelimiter c = true := by
  rcases h with h | rfl
  · simp [Dot.isDelimiter, h]
  · decide

/-- The token of the double quote itself. -/
def quoteTokens (c : Char) : List ParsedToken := if c = '\"' then [⟨.IGNORE, "\""⟩] else []

theorem Separator.commit {c : Char} (h : Separator c) (acc : List String) :
    (commit [c] acc).filterMap tokenOf = acc.filterMap tokenOf ++ quoteTokens c := by
  unfold quoteTokens
  split_ifs with hc
  · subst hc
    have hquote : Dot.commit ['\"'] acc = acc ++ ["\""] := by
      simp [Dot.commit, isspace]
    have htoken : tokenOf "\"" = some ⟨.IGNORE, "\""⟩ := by decide
    rw [hquote, List.filterMap_append, List.filterMap_cons_some htoken, List.filterMap_nil]
  · have hspace := h.resolve_right hc
    simp [Dot.commit, hspace]

/-- The line with the identifier between two separators. -/
def lineWith (pre : List Char) (d : Char) (s : String) (d' : Char) (post : List Char) : List Char :=
  pre ++ d :: (s.toList ++ d' :: post)

/-- A name that is kept in one piece is one token, and the line is read around it as it would be without it. -/
theorem tokenize_unbroken {s : String} (hs : Unbroken s) (ls : LastSeen) (pre post : List Char) {d d' : Char} (hd : Separator d)
    (hd' : Separator d') : tokenize ls (lineWith pre d s d' post) =
      tokenize ls (pre ++ [d]) ++ quoteTokens d ++ ⟨.ENTITY, s⟩ :: tokenize ls (d' :: post) := by
  obtain ⟨ls', hscan⟩ := scan_unbroken hs [d] (scan [] ls [] (pre ++ [d])) (d' :: post)
  have hsplit : splitToTokenStrings ls (lineWith pre d s d' post) =
      (commit [d] (splitToTokenStrings ls (pre ++ [d])) ++ [s]) ++ splitToTokenStrings ls (d' :: post) := by
    have hpost : scan [] ls [] (d' :: post) = scan [d'] .CNTRL [] post := scan_delimiter hd'.isDelimiter [] ls [] post
    rw [splitToTokenStrings_eq, splitToTokenStrings_eq, splitToTokenStrings_eq, lineWith, scan_upTo hd.isDelimiter, hscan,
      scan_delimiter hd'.isDelimiter, commit_unbroken hs, scan_acc, hpost]
  rw [tokenize, hsplit, List.filterMap_append, List.filterMap_append, hd.commit,
    List.filterMap_cons_some (tokenOf_unbroken hs), List.filterMap_nil, List.append_assoc _ [_], List.singleton_append]
  rfl

theorem Identifier.unbroken {s : String} (h : Identifier s) (hfirst : ∃ c rest, s.toList = c :: rest ∧ c.isAlphanum = true)
    (htogether : Together s.toList) : Unbroken s where
  letter := by
    obtain ⟨c, rest, hs, halnum⟩ := hfirst
    have hhead := h.1
    have hall := h.2
    rw [hs] at hhead
    refine ⟨c, rest, hs, ?_⟩
    simp only [List.head?_cons, Option.any_some, Bool.or_eq_true, decide_eq_true_eq] at hhead
    rcases hhead with hc | rfl
    · exact hc
    · exact absurd halnum (by decide)
  delimiter := by
    intro c hc
    have hin := h.2 c hc
    simp only [Bool.or_eq_true, decide_eq_true_eq] at hin
    rcases hin with hin | rfl
    · exact isDelimiter_eq_false hin
    · decide
  digits := htogether

/-- An identifier is kept whole, and gets its node, exactly if it begins with a letter and has no letter after a digit. -/
theorem tokenize_identifier_iff {s : String} (hs : Identifier s) (ls : LastSeen) (pre post : List Char) {d d' : Char}
    (hd : Separator d) (hd' : Separator d') :
    (tokenize ls (lineWith pre d s d' post) =
        tokenize ls (pre ++ [d]) ++ quoteTokens d ++ ⟨.ENTITY, s⟩ :: tokenize ls (d' :: post) ∧
      ∀ src p, Reading src p → Paired src.isEntity ((tokenize ls (lineWith pre d s d' post)).map ParsedToken.type) →
        ∃ p' i, parse ls p (lineWith pre d s d' post) = .ok p' ∧ p'.callgraph.nameOf i = some s) ↔ Unbroken s := by
  constructor
  · rintro ⟨htokens, -⟩
    have hmem : ⟨.ENTITY, s⟩ ∈ tokenize ls (lineWith pre d s d' post) := by
      rw [htokens]
      simp
    exact hs.unbroken (entity_tokenize hmem).2 (together_of_entity hmem)
  · intro hunbroken
    have htokens := tokenize_unbroken hunbroken ls pre post hd hd'
    refine ⟨htokens, fun src p hreading hpaired => ?_⟩
    have hempty : "" ∉ spellings (tokenize ls (lineWith pre d s d' post)) := by
      intro hmem
      obtain ⟨-, c, rest, hc, -⟩ := entity_tokenize hmem
      cases hc
    obtain ⟨p', hp', hext⟩ := hreading.run _ hempty hpaired
    have hspelled : s ∈ spellings (tokenize ls (lineWith pre d s d' post)) := by
      rw [htokens, spellings, Set.mem_ofPred_eq]
      simp
    obtain ⟨i, hi⟩ := List.exists_mem_of_ne_nil _ ((hext.named_iff s).mpr (.inr hspelled))
    exact ⟨p', i, hp', (mem_getNodesNamed hext.wf).mp hi⟩

theorem tokenize_identifier_foo12 : tokenize .CNTRL (lineWith [] ' ' "foo12" '\"' []) =
    tokenize .CNTRL ([] ++ [' ']) ++ quoteTokens ' ' ++ ⟨.ENTITY, "foo12"⟩ :: tokenize .CNTRL ['\"'] := by
  have hword : Word "foo12" := word_of_all ['f', 'o', 'o'] ['1', '2'] (by decide) (by decide) (by decide) (by decide)
  exact ((tokenize_identifier_iff (by decide) .CNTRL [] [] (.inl (by decide)) (.inr rfl)).mpr hword.unbroken).1

/-- A mangled name is torn apart. -/
theorem tokenize_mangled : Identifier "_Z3foov" ∧ Identifier "a1b" ∧
    tokenize .CNTRL (lineWith [] '\"' "_Z3foov" '\"' [' ']) =
      [⟨.IGNORE, "\"_"⟩, ⟨.ENTITY, "Z3"⟩, ⟨.ENTITY, "foov"⟩, ⟨.IGNORE, "\""⟩] ∧
    ⟨.ENTITY, "_Z3foov"⟩ ∉ tokenize .CNTRL (lineWith [] '\"' "_Z3foov" '\"' [' ']) ∧
    tokenize .CNTRL (lineWith [] ' ' "a1b" ' ' []) = [⟨.ENTITY, "a1"⟩, ⟨.ENTITY, "b"⟩] := by decide

end MetaCG.Dot
