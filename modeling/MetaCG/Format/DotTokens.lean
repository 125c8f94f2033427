import MetaCG.Format.DotIO

/-! The tokens of the lines that the generator writes.

`scan` is the tokenizer with the characters since `startPos` at hand instead of the two positions.
A word, letters followed by digits, is cut out only by what comes after it on its line. -/
namespace MetaCG.Dot
open Foundations
set_option autoImplicit false
set_option maxHeartbeats 250000
set_option maxRecDepth 120000

/-! ## Scanning with a pending token -/

def commit (pending : List Char) (tokenStrs : List String) : List String :=
  let strippedStr := pending.filter fun c => !isspace c
  if strippedStr.isEmpty then tokenStrs else tokenStrs ++ [String.ofList strippedStr]

def scan (pending : List Char) (ls : LastSeen) (tokenStrs : List String) : List Char → List String
  | [] => tokenStrs
  | c :: rest =>
    if isDelimiter c then scan [c] .CNTRL (commit pending tokenStrs) rest
    else if c.isDigit then scan (pending ++ [c]) .DIGIT tokenStrs rest
    else if c.isAlpha then
      if ls = .DIGIT ∨ ls = .CNTRL then scan [c] .CHAR (commit pending tokenStrs) rest
      else scan (pending ++ [c]) .CHAR tokenStrs rest
    else scan (pending ++ [c]) ls tokenStrs rest

theorem scan_delimiter {d : Char} (hd : isDelimiter d = true) (pending : List Char) (ls : LastSeen) (acc : List String)
    (rest : List Char) : scan pending ls acc (d :: rest) = scan [d] .CNTRL (commit pending acc) rest := by
  rw [scan, if_pos hd]

theorem substr_succ (pre rest : List Char) (c : Char) {startPos : ℕ} (h : startPos ≤ pre.length) :
    substr (pre ++ c :: rest) startPos (pre.length + 1 - startPos) =
      substr (pre ++ c :: rest) startPos (pre.length - startPos) ++ [c] := by
  have hcount : pre.length + 1 - startPos = pre.length - startPos + 1 := by omega
  have hpos : startPos + (pre.length - startPos) = pre.length := by omega
  rw [substr, hcount, List.take_add_one, List.getElem?_drop, hpos]
  simp [substr]

theorem substr_one (pre rest : List Char) (c : Char) :
    substr (pre ++ c :: rest) pre.length (pre.length + 1 - pre.length) = [c] := by
  rw [substr_succ pre rest c le_rfl, Nat.sub_self]
  rfl

theorem splitStep_curPos (line : List Char) (st : SplitState) (c : Char) :
    (splitStep line st c).curPos = st.curPos + 1 := by
  unfold splitStep
  split_ifs <;> rfl

theorem splitStep_startPos (line : List Char) {st : SplitState} (c : Char) (h : st.startPos ≤ st.curPos) :
    (splitStep line st c).startPos ≤ (splitStep line st c).curPos := by
  unfold splitStep
  split_ifs
  all_goals
    simp only
    omega

theorem foldl_splitStep (rest : List Char) : ∀ (pre : List Char) (st : SplitState), st.curPos = pre.length →
    st.startPos ≤ st.curPos → (rest.foldl (splitStep (pre ++ rest)) st).tokenStrs =
      scan (substr (pre ++ rest) st.startPos (st.curPos - st.startPos)) st.ls st.tokenStrs rest := by
  induction rest with
  | nil => exact fun pre st _ _ => rfl
  | cons c rest ih =>
    intro pre st hcur hstart
    have happ : pre ++ c :: rest = (pre ++ [c]) ++ rest := by simp
    have hlen : (pre ++ [c]).length = pre.length + 1 := by simp
    have hpending : substr (pre ++ c :: rest) st.startPos (st.curPos + 1 - st.startPos) =
        substr (pre ++ c :: rest) st.startPos (st.curPos - st.startPos) ++ [c] := by
      rw [hcur]
      exact substr_succ pre rest c (hcur ▸ hstart)
    have hnew : substr (pre ++ c :: rest) st.curPos (st.curPos + 1 - st.curPos) = [c] := by
      rw [hcur]
      exact substr_one pre rest c
    have hnext := splitStep_curPos (pre ++ c :: rest) st c
    have hstart' := splitStep_startPos (pre ++ c :: rest) c hstart
    rw [List.foldl_cons, happ, ih (pre ++ [c]) _ (by rw [← happ, hnext, hcur, hlen]) (by rw [← happ]; exact hstart'),
      ← happ, scan]
    unfold splitStep
    split_ifs
    · simp only [hnew]
      rfl
    · simp only [hpending]
    · simp only [hnew]
      rfl
    · simp only [hpending]
    · simp only [hpending]

theorem splitToTokenStrings_eq (ls : LastSeen) (line : List Char) : splitToTokenStrings ls line = scan [] ls [] line :=
  foldl_splitStep line [] ⟨0, 0, ls, []⟩ rfl le_rfl

/-! ## Nothing is lost

The text of the tokens and what is pending give the line back; the whitespace at the end of a line commits the rest. -/

def strip (line : List Char) : List Char := line.filter fun c => !isspace c

theorem strip_append (l m : List Char) : strip (l ++ m) = strip l ++ strip m := List.filter_append ..

theorem strip_space {c : Char} (h : isspace c = true) : strip [c] = [] := by simp [strip, h]

theorem commit_text (pending : List Char) (tokenStrs : List String) :
    (commit pending tokenStrs).flatMap String.toList = tokenStrs.flatMap String.toList ++ strip pending := by
  unfold commit
  simp only
  split_ifs with hempty
  · have hnil : strip pending = [] := List.isEmpty_iff.mp hempty
    rw [hnil, List.append_nil]
  · rw [List.flatMap_append, List.flatMap_singleton, String.toList_ofList, strip]

/-- A token: non-empty and without whitespace. -/
def IsToken (s : String) : Prop := s ≠ "" ∧ ∀ c ∈ s.toList, isspace c = false

theorem commit_tokens {tokenStrs : List String} (h : ∀ s ∈ tokenStrs, IsToken s) (pending : List Char) :
    ∀ s ∈ commit pending tokenStrs, IsToken s := by
  unfold commit
  simp only
  split_ifs with hempty
  · exact h
  · intro s hs
    rcases List.mem_append.mp hs with hs | hs
    · exact h s hs
    · rw [List.mem_singleton.mp hs]
      refine ⟨fun he => hempty ?_, fun c hc => ?_⟩
      · have hnil := congrArg String.toList he
        rw [String.toList_ofList] at hnil
        rw [hnil]
        rfl
      · rw [String.toList_ofList] at hc
        simpa using (List.mem_filter.mp hc).2

theorem scan_text {w : Char} (hw : isspace w = true) (line : List Char) :
    ∀ (pending : List Char) (ls : LastSeen) (acc : List String),
      (scan pending ls acc (line ++ [w])).flatMap String.toList = acc.flatMap String.toList ++ strip (pending ++ line) := by
  induction line with
  | nil =>
    intro pending ls acc
    have hdelim : isDelimiter w = true := by simp [isDelimiter, hw]
    rw [List.nil_append, scan_delimiter hdelim, scan, commit_text, List.append_nil]
  | cons c rest ih =>
    intro pending ls acc
    have hkeep : strip (pending ++ c :: rest) = strip (pending ++ [c] ++ rest) := by rw [List.append_assoc, List.singleton_append]
    have hcut : ∀ ls', (scan [c] ls' (commit pending acc) (rest ++ [w])).flatMap String.toList =
        acc.flatMap String.toList ++ strip (pending ++ c :: rest) := by
      intro ls'
      rw [ih, commit_text, List.append_assoc, ← strip_append, List.singleton_append]
    rw [List.cons_append, scan]
    split_ifs
    · exact hcut .CNTRL
    · rw [ih, hkeep]
    · exact hcut .CHAR
    · rw [ih, hkeep]
    · rw [ih, hkeep]

theorem scan_tokens (line : List Char) : ∀ (pending : List Char) (ls : LastSeen) (acc : List String),
    (∀ s ∈ acc, IsToken s) → ∀ s ∈ scan pending ls acc line, IsToken s := by
  induction line with
  | nil => exact fun _ _ _ hacc => hacc
  | cons c rest ih =>
    intro pending ls acc hacc
    have hcommit := commit_tokens hacc pending
    rw [scan]
    split_ifs
    · exact ih _ _ _ hcommit
    · exact ih _ _ _ hacc
    · exact ih _ _ _ hcommit
    · exact ih _ _ _ hacc
    · exact ih _ _ _ hacc

/-- The tokens of a line that ends in whitespace are the line without its whitespace. -/
theorem splitToTokenStrings_lossless (ls : LastSeen) {line : List Char}
    (hend : ∃ w, line.getLast? = some w ∧ isspace w = true) :
    (splitToTokenStrings ls line).flatMap String.toList = line.filter (fun c => !isspace c) ∧
      ∀ s ∈ splitToTokenStrings ls line, s ≠ "" ∧ ∀ c ∈ s.toList, isspace c = false := by
  obtain ⟨w, hlast, hw⟩ := hend
  obtain ⟨line, rfl⟩ := List.getLast?_eq_some_iff.mp hlast
  rw [splitToTokenStrings_eq]
  refine ⟨?_, scan_tokens _ [] ls [] fun s hs => absurd hs List.not_mem_nil⟩
  have htext := scan_text hw line [] ls []
  have hstrip : strip (line ++ [w]) = strip line := by rw [strip_append, strip_space hw, List.append_nil]
  rw [htext]
  exact hstrip.symm

theorem splitToTokenStrings_lossless_edge :
    (splitToTokenStrings .CHAR "-> n1 ".toList).flatMap String.toList = "->n1".toList ∧
      ∀ s ∈ splitToTokenStrings .CHAR "-> n1 ".toList, s ≠ "" ∧ ∀ c ∈ s.toList, isspace c = false :=
  splitToTokenStrings_lossless .CHAR ⟨' ', by decide, by decide⟩

/-! ## Letters and digits -/

theorem toNat_of_isDigit {c : Char} (h : c.isDigit = true) : 48 ≤ c.toNat ∧ c.toNat ≤ 57 := by
  simp only [Char.isDigit, Bool.and_eq_true, decide_eq_true_eq, ge_iff_le, UInt32.le_iff_toNat_le] at h
  exact h

theorem toNat_of_isAlpha {c : Char} (h : c.isAlpha = true) :
    (65 ≤ c.toNat ∧ c.toNat ≤ 90) ∨ (97 ≤ c.toNat ∧ c.toNat ≤ 122) := by
  rcases Bool.or_eq_true_iff.mp h with hupper | hlower
  · exact .inl (of_decide_eq_true hupper)
  · obtain ⟨hge, hle⟩ := Bool.and_eq_true_iff.mp hlower
    exact .inr ⟨of_decide_eq_true hge, of_decide_eq_true hle⟩

theorem isDelimiter_eq_false {c : Char} (h : c.isAlpha = true ∨ c.isDigit = true) : isDelimiter c = false := by
  have hne : ∀ d : Char, d.isAlpha = false → d.isDigit = false → c ≠ d := by
    intro d ha hn he
    subst he
    rw [ha, hn] at h
    simp at h
  have hspace : isspace c = false := by
    have hb : ¬ (9 ≤ c.toNat ∧ c.toNat ≤ 13) := by
      rcases h with h | h
      · have := toNat_of_isAlpha h
        omega
      · have := toNat_of_isDigit h
        omega
    simp only [isspace, Bool.or_eq_false_iff, decide_eq_false_iff_not, Bool.and_eq_false_iff, not_le]
    exact ⟨hne ' ' (by decide) (by decide), by omega⟩
  simp [isDelimiter, hspace, hne '=' (by decide) (by decide), hne '\x7b' (by decide) (by decide),
    hne '\x7d' (by decide) (by decide), hne '[' (by decide) (by decide), hne ']' (by decide) (by decide),
    hne '\"' (by decide) (by decide)]

theorem isDigit_of_isAlpha {c : Char} (h : c.isAlpha = true) : c.isDigit = false := by
  by_contra hd
  have h₁ := toNat_of_isAlpha h
  have h₂ := toNat_of_isDigit (by simpa using hd)
  omega

/-- Letters followed by digits. -/
def Word (s : String) : Prop :=
  ∃ letters digits, s.toList = letters ++ digits ∧ letters ≠ [] ∧ (∀ c ∈ letters, c.isAlpha = true) ∧
    ∀ c ∈ digits, c.isDigit = true

theorem word_of_all {s : String} (letters digits : List Char) (hs : s.toList = letters ++ digits) (hne : letters ≠ [])
    (hl : letters.all Char.isAlpha = true) (hd : digits.all Char.isDigit = true) : Word s :=
  ⟨letters, digits, hs, hne, List.all_eq_true.mp hl, List.all_eq_true.mp hd⟩

theorem Word.alnum {s : String} (h : Word s) : ∀ c ∈ s.toList, c.isAlpha = true ∨ c.isDigit = true := by
  obtain ⟨letters, digits, hs, -, hl, hd⟩ := h
  intro c hc
  rw [hs, List.mem_append] at hc
  exact hc.imp (hl c) (hd c)

/-! ## Scanning words -/

/-- The characters that follow the first letter of a token. -/
theorem scan_tail {l : List Char} (hdelim : ∀ c ∈ l, isDelimiter c = false)
    (hpair : l.Pairwise fun c d => c.isDigit = true → d.isAlpha = false) (pending : List Char) {ls : LastSeen}
    (hls : ls ≠ .CHAR → ∀ c ∈ l, c.isAlpha = false) (acc : List String) (rest : List Char) :
    ∃ ls', scan pending ls acc (l ++ rest) = scan (pending ++ l) ls' acc rest := by
  induction l generalizing pending ls with
  | nil => exact ⟨ls, by simp⟩
  | cons c l ih =>
    rw [List.forall_mem_cons] at hdelim
    rw [List.pairwise_cons] at hpair
    simp only [List.forall_mem_cons] at hls
    have hstep : ∃ ls', scan pending ls acc (c :: (l ++ rest)) = scan (pending ++ [c]) ls' acc (l ++ rest) ∧
        (ls' ≠ .CHAR → ∀ c ∈ l, c.isAlpha = false) := by
      rw [scan, if_neg (by simp [hdelim.1])]
      by_cases hdigit : c.isDigit = true
      · exact ⟨.DIGIT, by rw [if_pos hdigit], fun _ d hd => hpair.1 d hd hdigit⟩
      · rw [if_neg hdigit]
        by_cases halpha : c.isAlpha = true
        · have hchar : ls = .CHAR := by
            by_contra hne
            rw [(hls hne).1] at halpha
            cases halpha
          refine ⟨.CHAR, ?_, fun hne => absurd rfl hne⟩
          rw [if_pos halpha, hchar, if_neg (by decide)]
        · exact ⟨ls, by rw [if_neg halpha], fun hne => (hls hne).2⟩
    obtain ⟨ls₁, hscan, hls₁⟩ := hstep
    obtain ⟨ls', hrest⟩ := ih hdelim.2 hpair.2 (pending ++ [c]) hls₁
    refine ⟨ls', ?_⟩
    rw [List.cons_append, hscan, hrest, List.append_assoc, List.singleton_append]

/-- A name that the tokenizer keeps in one piece: it begins with a letter, and no letter follows a digit. -/
structure Unbroken (s : String) : Prop where
  letter : ∃ c rest, s.toList = c :: rest ∧ c.isAlpha = true
  delimiter : ∀ c ∈ s.toList, isDelimiter c = false
  digits : s.toList.Pairwise fun c d => c.isDigit = true → d.isAlpha = false

theorem isAlpha_of_isDigit {c : Char} (h : c.isDigit = true) : c.isAlpha = false := by
  by_contra ha
  rw [isDigit_of_isAlpha (by simpa using ha)] at h
  cases h

theorem Word.unbroken {s : String} (h : Word s) : Unbroken s := by
  have halnum := h.alnum
  obtain ⟨letters, digits, hs, hne, hl, hd⟩ := h
  refine ⟨?_, fun c hc => isDelimiter_eq_false (halnum c hc), ?_⟩
  · obtain ⟨c, letters, rfl⟩ := List.exists_cons_of_ne_nil hne
    exact ⟨c, letters ++ digits, hs, hl c (List.mem_cons_self ..)⟩
  · rw [hs, List.pairwise_append]
    refine ⟨List.pairwise_of_forall_mem_list fun c hc d _ hdigit => ?_,
      List.pairwise_of_forall_mem_list fun c _ d hmem _ => isAlpha_of_isDigit (hd d hmem),
      fun c _ d hmem _ => isAlpha_of_isDigit (hd d hmem)⟩
    rw [isDigit_of_isAlpha (hl c hc)] at hdigit
    cases hdigit

theorem Unbroken.ne_nil {s : String} (h : Unbroken s) : s.toList ≠ [] := by
  obtain ⟨c, rest, hs, -⟩ := h.letter
  rw [hs]
  exact List.cons_ne_nil c rest

theorem Unbroken.ne_empty {s : String} (h : Unbroken s) : s ≠ "" := fun he => h.ne_nil (by rw [he]; rfl)

/-- After a delimiter such a name becomes the pending token. -/
theorem scan_unbroken {s : String} (h : Unbroken s) (pending : List Char) (acc : List String) (rest : List Char) :
    ∃ ls', scan pending .CNTRL acc (s.toList ++ rest) = scan s.toList ls' (commit pending acc) rest := by
  obtain ⟨⟨c, l, hs, hc⟩, hdelim, hpair⟩ := h
  rw [hs, List.forall_mem_cons] at hdelim
  rw [hs, List.pairwise_cons] at hpair
  obtain ⟨ls', hrun⟩ := scan_tail hdelim.2 hpair.2 [c] (fun hne => absurd rfl hne) (commit pending acc) rest
  refine ⟨ls', ?_⟩
  rw [hs, List.cons_append, scan, if_neg (by simp [hdelim.1]), if_neg (by simp [isDigit_of_isAlpha hc]), if_pos hc,
    if_pos (.inr rfl), hrun, List.singleton_append]

theorem commit_unbroken {s : String} (h : Unbroken s) (acc : List String) : commit s.toList acc = acc ++ [s] := by
  have hfilter : s.toList.filter (fun c => !isspace c) = s.toList := by
    rw [List.filter_eq_self]
    intro c hc
    have hd := h.delimiter c hc
    simp only [isDelimiter, Bool.or_eq_false_iff] at hd
    simp [hd.1]
  rw [commit, hfilter, String.ofList_toList]
  simp [h.ne_nil]

theorem tokenOf_unbroken {s : String} (h : Unbroken s) : tokenOf s = some ⟨.ENTITY, s⟩ := by
  obtain ⟨c, rest, hs, hc⟩ := h.letter
  have halnum : c.isAlphanum = true := by simp [Char.isAlphanum, hc]
  rw [tokenOf, hs]
  simp [halnum]

/-! ## The lines of a generated file -/

theorem tokenize_header (ls : LastSeen) :
    tokenize ls "digraph callgraph \x7b".toList = [⟨.ENTITY, "digraph"⟩, ⟨.ENTITY, "callgraph"⟩] := by
  cases ls <;> decide

theorem tokenize_closing (ls : LastSeen) : tokenize ls "\x7d".toList = [] := by
  cases ls <;> decide

theorem tokenize_nodeLine (ls : LastSeen) {name : String} (h : Word name) :
    tokenize ls (nodeLine name).toList = [⟨.IGNORE, "\""⟩, ⟨.ENTITY, name⟩] := by
  have hline : (nodeLine name).toList = ' ' :: ' ' :: '\"' :: (name.toList ++ ['\"']) := by
    simp [nodeLine, String.toList_append]
  obtain ⟨ls', hword⟩ := scan_unbroken h.unbroken ['\"'] [] ['\"']
  have hsplit : splitToTokenStrings ls (nodeLine name).toList = ["\"", name] := by
    rw [splitToTokenStrings_eq, hline, scan_delimiter (by decide), scan_delimiter (by decide), scan_delimiter (by decide)]
    change scan ['\"'] .CNTRL [] (name.toList ++ ['\"']) = _
    rw [hword, scan_delimiter (by decide), scan, commit_unbroken h.unbroken]
    rfl
  have hquote : tokenOf "\"" = some ⟨.IGNORE, "\""⟩ := by decide
  rw [tokenize, hsplit, List.filterMap_cons_some hquote, List.filterMap_cons_some (tokenOf_unbroken h.unbroken)]
  rfl

/-- The name of the callee is the last word of its line, so it is not among the tokens. -/
theorem tokenize_edgeLine (ls : LastSeen) {source target : String} (hs : Word source) (ht : Word target) :
    tokenize ls ("  " ++ (source ++ " -> " ++ target)).toList = [⟨.ENTITY, source⟩, ⟨.CONNECTOR, "->"⟩] := by
  have hline : ("  " ++ (source ++ " -> " ++ target)).toList =
      ' ' :: ' ' :: (source.toList ++ ' ' :: '-' :: '>' :: ' ' :: (target.toList ++ [])) := by
    simp [String.toList_append]
  obtain ⟨ls₁, hsource⟩ := scan_unbroken hs.unbroken [' '] [] (' ' :: '-' :: '>' :: ' ' :: (target.toList ++ []))
  obtain ⟨ls₂, htarget⟩ := scan_unbroken ht.unbroken [' '] [source, "->"] []
  have hsplit : splitToTokenStrings ls ("  " ++ (source ++ " -> " ++ target)).toList = [source, "->"] := by
    rw [splitToTokenStrings_eq, hline, scan_delimiter (by decide), scan_delimiter (by decide)]
    change scan [' '] .CNTRL [] (source.toList ++ _) = _
    rw [hsource, scan_delimiter (by decide), commit_unbroken hs.unbroken]
    change scan [' '] .CNTRL [source, "->"] (target.toList ++ []) = _
    rw [htarget, scan]
    rfl
  have harrow : tokenOf "->" = some ⟨.CONNECTOR, "->"⟩ := by decide
  rw [tokenize, hsplit, List.filterMap_cons_some (tokenOf_unbroken hs.unbroken), List.filterMap_cons_some harrow]
  rfl

theorem getlines_line {l : List Char} (h : '\n' ∉ l) (line rest : List Char) :
    getlines line (l ++ '\n' :: rest) = (line ++ l) :: getlines [] rest := by
  induction l generalizing line with
  | nil => rw [List.nil_append, getlines, if_pos rfl, List.append_nil]
  | cons c l ih =>
    have hc : c ≠ '\n' := fun he => h (he ▸ List.mem_cons_self ..)
    rw [List.cons_append, getlines, if_neg hc, ih (fun hm => h (List.mem_cons_of_mem c hm)), List.append_assoc,
      List.singleton_append]

theorem getlines_join {lines : List String} (h : ∀ l ∈ lines, '\n' ∉ l.toList) :
    getlines [] (String.join (lines.map fun l => l ++ "\n")).toList = lines.map String.toList := by
  induction lines with
  | nil => rfl
  | cons l lines ih =>
    have hl : (l ++ "\n").toList = l.toList ++ ['\n'] := by simp [String.toList_append]
    rw [List.map_cons, String.join_cons, String.toList_append, hl, List.append_assoc, List.singleton_append,
      getlines_line (h l (List.mem_cons_self ..)), ih (fun m hm => h m (List.mem_cons_of_mem l hm)), List.nil_append]
    rfl

theorem Word.no_newline {s : String} (h : Word s) : '\n' ∉ s.toList := by
  intro hmem
  have hd := isDelimiter_eq_false (h.alnum _ hmem)
  exact absurd hd (by decide)

end MetaCG.Dot
