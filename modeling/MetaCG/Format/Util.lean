import MetaCG.Format.ReadNodes

/-! Splitting strings and reading version numbers (`Util.h`).

A `std::string` is the list of its bytes, which `find` and `substr` count; texts are in UTF-8. Positions are
kept as iterators into the vector of positions; `end - bg` is the distance of two neighbouring iterators.
`exit(-1)` after 5000 positions is the error `Exn.exit`. -/
namespace MetaCG.Util
open Foundations
set_option autoImplicit false
set_option maxHeartbeats 250000
set_option maxRecDepth 120000

/-- The bytes of a text. -/
def bytes (text : String) : List UInt8 := text.toList.flatMap String.utf8EncodeChar

/-- `in.find(c, pos)` -/
def find (input : List UInt8) (c : UInt8) (pos : ℕ) : Option ℕ := ((input.drop pos).findIdx? (· == c)).map (pos + ·)

/-- The loop over the positions; `room` bounds the number of its rounds. -/
def splitPositions (input : List UInt8) (c : UInt8) : ℕ → List ℕ → Except Exn (List ℕ)
  | 0, _ => .error .exit
  | room + 1, positions =>
    match find input c (positions.getLastD 0 + 1) with
    | none => .ok positions
    | some pos =>
      if (positions ++ [pos + 1]).length > 5000 then .error .exit
      else splitPositions input c room (positions ++ [pos + 1])

/-- `in.substr(pos, count)` -/
def substr (input : List UInt8) (pos count : ℕ) : List UInt8 := (input.drop pos).take count

-- The second argument of `substr` is a distance of iterators, not of positions.
def stringSplit (input : List UInt8) (c : UInt8) : Except Exn (List (List UInt8)) := do
  let positions ← splitPositions input c 5000 [0]
  return positions.zipIdx.map fun bg => substr input bg.1 ((bg.2 + 1) - bg.2)

/-- `std::isspace` -/
def isspace (c : UInt8) : Bool := c = ' '.toUInt8 || (9 ≤ c && c ≤ 13)

/-- `std::isdigit` -/
def isdigit (c : UInt8) : Bool := '0'.toUInt8 ≤ c && c ≤ '9'.toUInt8

/-- The value of the digits in front. -/
def digitsValue (s : List UInt8) : ℕ := (s.takeWhile isdigit).foldl (fun value c => 10 * value + (c - '0'.toUInt8).toNat) 0

/-- `std::atoi` -/
def atoi (s : List UInt8) : Int32 :=
  match s.dropWhile isspace with
  | [] => 0
  | c :: digits =>
    if c = '-'.toUInt8 then Int32.ofInt (-digitsValue digits)
    else if c = '+'.toUInt8 then Int32.ofInt (digitsValue digits)
    else Int32.ofInt (digitsValue (c :: digits))

def getVersionNoAtPosition (versionStr : List UInt8) (index : ℕ) : Except Exn Int32 :=
  if versionStr.count '.'.toUInt8 < 1 then .error .exit
  else do
    let versionParts ← stringSplit versionStr '.'.toUInt8
    match versionParts[index]? with
    | none => .error .outOfRange
    | some part => return atoi part

def getMajorVersionFromString (versionStr : List UInt8) : Except Exn Int32 := getVersionNoAtPosition versionStr 0

def getMinorVersionFromString (versionStr : List UInt8) : Except Exn Int32 := getVersionNoAtPosition versionStr 1

/-! ## Splitting -/

/-- The parts with the separator between them. -/
def joined (c : UInt8) (p : List UInt8) : List (List UInt8) → List UInt8
  | [] => p
  | q :: ps => p ++ c :: joined c q ps

/-- Where the parts begin, the first of them at `start`. -/
def starts (start : ℕ) (p : List UInt8) : List (List UInt8) → List ℕ
  | [] => [start]
  | q :: ps => start :: starts (start + p.length + 1) q ps

theorem intercalate_cons (c : UInt8) (p : List UInt8) (ps : List (List UInt8)) :
    [c].intercalate (p :: ps) = joined c p ps := by
  induction ps generalizing p with
  | nil => simp [joined, List.intercalate]
  | cons q ps ih =>
    rw [joined, ← ih q]
    simp [List.intercalate, List.intersperse]

section
variable {c : UInt8}

theorem findIdx?_of_notMem {l : List UInt8} (h : c ∉ l) : l.findIdx? (· == c) = none := by
  rw [List.findIdx?_eq_none_iff]
  intro d hd
  exact beq_false_of_ne fun he => h (he ▸ hd)

theorem findIdx?_append_cons {l : List UInt8} (h : c ∉ l) (rest : List UInt8) :
    (l ++ c :: rest).findIdx? (· == c) = some l.length := by
  rw [List.findIdx?_append, findIdx?_of_notMem h, Option.none_or, List.findIdx?_cons, if_pos (beq_self_eq_true c)]
  simp

/-- Within the part `p`, which is not empty, the search goes on at its second byte. -/
theorem find_part {pre p : List UInt8} (hne : p ≠ []) (hp : c ∉ p) (rest : List UInt8) :
    find (pre ++ (p ++ c :: rest)) c (pre.length + 1) = some (pre.length + p.length) := by
  obtain ⟨d, p, rfl⟩ := List.exists_cons_of_ne_nil hne
  have hdrop : (pre ++ (d :: p ++ c :: rest)).drop (pre.length + 1) = p ++ c :: rest := by
    rw [List.drop_append, List.drop_of_length_le (by omega)]
    simp
  rw [find, hdrop, findIdx?_append_cons (fun h => hp (List.mem_cons_of_mem d h)), Option.map_some, List.length_cons]
  congr 1
  omega

theorem find_last {pre p : List UInt8} (hp : c ∉ p) : find (pre ++ p) c (pre.length + 1) = none := by
  have hdrop : (pre ++ p).drop (pre.length + 1) = p.drop 1 := by
    rw [List.drop_append, List.drop_of_length_le (by omega), List.nil_append]
    congr 1
    omega
  rw [find, hdrop, findIdx?_of_notMem fun h => hp (List.mem_of_mem_drop h), Option.map_none]

/-- The loop finds the beginnings of all parts, unless there are too many. -/
theorem splitPositions_joined (ps : List (List UInt8)) : ∀ (pre p : List UInt8) (positions : List ℕ) (room : ℕ),
    (∀ q ∈ p :: ps, q ≠ [] ∧ c ∉ q) → positions.length + (room + 1) = 5000 →
    splitPositions (pre ++ joined c p ps) c (room + 1) (positions ++ [pre.length]) =
      if positions.length + 1 + ps.length ≤ 5000 then .ok (positions ++ starts pre.length p ps) else .error .exit := by
  induction ps with
  | nil =>
    intro pre p positions room hparts hroom
    rw [splitPositions, List.getLastD_concat, joined, find_last (hparts p (List.mem_cons_self ..)).2,
      if_pos (by simp only [List.length_nil]; omega)]
    rfl
  | cons q ps ih =>
    intro pre p positions room hparts hroom
    obtain ⟨hne, hp⟩ := hparts p (List.mem_cons_self ..)
    rw [splitPositions, List.getLastD_concat, joined, find_part hne hp]
    dsimp only
    rw [List.length_append, List.length_append, List.length_singleton, List.length_singleton]
    by_cases hfull : positions.length + 1 + 1 > 5000
    · rw [if_pos hfull, if_neg (by rw [List.length_cons]; omega)]
    · obtain ⟨room, rfl⟩ : ∃ r, room = r + 1 := ⟨room - 1, by omega⟩
      have hnext := ih (pre ++ (p ++ [c])) q (positions ++ [pre.length]) room
        (fun r hr => hparts r (List.mem_cons_of_mem p hr)) (by rw [List.length_append, List.length_singleton]; omega)
      have happ : pre ++ (p ++ [c]) ++ joined c q ps = pre ++ (p ++ c :: joined c q ps) := by simp
      have hlen : (pre ++ (p ++ [c])).length = pre.length + p.length + 1 := by
        simp only [List.length_append, List.length_singleton]
        omega
      rw [happ, hlen, List.length_append, List.length_singleton] at hnext
      rw [if_neg hfull, hnext, List.length_cons, starts, List.append_assoc, List.singleton_append]
      congr 1
      exact propext ⟨fun h => by omega, fun h => by omega⟩

/-- The first bytes of the parts. -/
theorem starts_substr (ps : List (List UInt8)) : ∀ (pre p : List UInt8), (∀ q ∈ p :: ps, q ≠ []) →
    (starts pre.length p ps).map (fun s => ((pre ++ joined c p ps).drop s).take 1) = (p :: ps).map (List.take 1) := by
  induction ps with
  | nil =>
    intro pre p _
    simp [starts, joined]
  | cons q ps ih =>
    intro pre p hparts
    obtain ⟨d, p, rfl⟩ := List.exists_cons_of_ne_nil (hparts p (List.mem_cons_self ..))
    have hnext := ih (pre ++ (d :: p ++ [c])) q fun r hr => hparts r (List.mem_cons_of_mem _ hr)
    have happ : pre ++ (d :: p ++ [c]) ++ joined c q ps = pre ++ joined c (d :: p) (q :: ps) := by simp [joined]
    have hlen : (pre ++ (d :: p ++ [c])).length = pre.length + (d :: p).length + 1 := by
      simp only [List.length_append, List.length_singleton]
      omega
    rw [happ, hlen] at hnext
    rw [starts, List.map_cons, hnext, List.map_cons (a := d :: p)]
    congr 1
    simp [joined]

end

theorem zipIdx_substr (input : List UInt8) (positions : List ℕ) :
    positions.zipIdx.map (fun bg => substr input bg.1 ((bg.2 + 1) - bg.2)) = positions.map fun s => (input.drop s).take 1 := by
  have hone : (fun bg : ℕ × ℕ => substr input bg.1 ((bg.2 + 1) - bg.2)) = (fun s => (input.drop s).take 1) ∘ Prod.fst := by
    funext bg
    rw [Nat.add_sub_cancel_left]
    rfl
  rw [hone, ← List.map_map, List.zipIdx_map_fst]

/-- Only the first byte of every part is kept. -/
theorem stringSplit_intercalate (c : UInt8) {p : List UInt8} {ps : List (List UInt8)}
    (hparts : ∀ q ∈ p :: ps, q ≠ [] ∧ c ∉ q) : stringSplit ([c].intercalate (p :: ps)) c =
      if (p :: ps).length ≤ 5000 then .ok ((p :: ps).map (List.take 1)) else .error .exit := by
  have hpos := splitPositions_joined ps [] p [] 4999 hparts (by decide)
  have hstarts := starts_substr (c := c) ps [] p fun q hq => (hparts q hq).1
  simp only [List.nil_append, List.length_nil] at hpos hstarts
  rw [stringSplit, intercalate_cons, hpos, List.length_cons]
  by_cases hlen : ps.length + 1 ≤ 5000
  · rw [if_pos (by omega), if_pos hlen, ok_bind, zipIdx_substr, hstarts]
    rfl
  · rw [if_neg (by omega), if_neg hlen]
    rfl

theorem stringSplit_iff (c : UInt8) {parts : List (List UInt8)} (hnil : parts ≠ []) (hparts : ∀ q ∈ parts, q ≠ [] ∧ c ∉ q) :
    stringSplit ([c].intercalate parts) c = .ok parts ↔ (∀ q ∈ parts, q.length = 1) ∧ parts.length ≤ 5000 := by
  obtain ⟨p, ps, rfl⟩ := List.exists_cons_of_ne_nil hnil
  rw [stringSplit_intercalate c hparts]
  split_ifs with hlen
  · have hself : (p :: ps).map (List.take 1) = p :: ps ↔ ∀ q ∈ p :: ps, q.take 1 = q := by
      conv_lhs => rhs; rw [← List.map_id (p :: ps)]
      exact List.map_inj_left
    rw [Except.ok.injEq, hself, and_iff_left hlen]
    refine forall₂_congr fun q hq => ?_
    have hpos := List.length_pos_iff.mpr (hparts q hq).1
    rw [List.take_eq_self_iff]
    omega
  · exact ⟨fun h => (by cases h), fun h => absurd h.2 hlen⟩

/-! ## Version numbers -/

/-- A text of ASCII characters has one byte for each. -/
theorem bytes_of_ascii {text : String} (h : ∀ c ∈ text.toList, c.val ≤ 127) : bytes text = text.toList.map Char.toUInt8 := by
  have hone : ∀ c ∈ text.toList, String.utf8EncodeChar c = [c.toUInt8] := fun c hc =>
    String.utf8EncodeChar_eq_singleton (Char.utf8Size_eq_one_iff.mpr (h c hc))
  rw [bytes, List.flatMap_congr hone]
  exact List.flatMap_pure_eq_map ..

theorem atoi_digit {d : ℕ} (hd : d < 10) : atoi [d.digitChar.toUInt8] = Int32.ofInt d := by
  have hall : ∀ d : Fin 10, atoi [d.val.digitChar.toUInt8] = Int32.ofInt d.val := by decide
  exact hall ⟨d, hd⟩

theorem bytes_append (a b : String) : bytes (a ++ b) = bytes a ++ bytes b := by
  rw [bytes, String.toList_append, List.flatMap_append]
  rfl

theorem val_of_mem_toString {n : ℕ} {c : Char} (hc : c ∈ (toString n).toList) : 48 ≤ c.val ∧ c.val ≤ 57 := by
  have hdigit := isDigit_of_mem_toString hc
  rw [Char.isDigit, Bool.and_eq_true, decide_eq_true_iff, decide_eq_true_iff] at hdigit
  exact hdigit

theorem bytes_toString (n : ℕ) : bytes (toString n) = (Nat.toDigits 10 n).map Char.toUInt8 := by
  have htoList : (toString n).toList = Nat.toDigits 10 n := Nat.toList_repr
  rw [← htoList]
  exact bytes_of_ascii fun c hc => UInt32.le_trans (val_of_mem_toString hc).2 (by decide)

theorem bytes_toString_part (n : ℕ) : bytes (toString n) ≠ [] ∧ '.'.toUInt8 ∉ bytes (toString n) := by
  rw [bytes_toString]
  refine ⟨fun h => Nat.toDigits_ne_nil (List.map_eq_nil_iff.mp h), fun h => ?_⟩
  obtain ⟨c, hc, hdot⟩ := List.mem_map.mp h
  rw [← Nat.toList_repr] at hc
  obtain ⟨hlower, hupper⟩ := val_of_mem_toString hc
  have hnat : c.val.toNat % 256 = 46 := congrArg UInt8.toNat hdot
  have hlower : 48 ≤ c.val.toNat := UInt32.le_iff_toNat_le.mp hlower
  have hupper : c.val.toNat ≤ 57 := UInt32.le_iff_toNat_le.mp hupper
  omega

/-- The first digit of a number, and that it is the number only below ten. -/
theorem bytes_toString_take_one (n : ℕ) : ∃ d, d < 10 ∧ (bytes (toString n)).take 1 = [d.digitChar.toUInt8] ∧
    (d = n ↔ n < 10) := by
  induction n using Nat.strongRecOn with
  | ind n ih =>
    by_cases hn : n < 10
    · exact ⟨n, hn, by rw [bytes_toString, Nat.toDigits_of_lt_base hn]; rfl, by simp [hn]⟩
    · obtain ⟨d, hd, heq, -⟩ := ih (n / 10) (by omega)
      refine ⟨d, hd, ?_, by omega⟩
      rw [bytes_toString] at heq
      rw [bytes_toString, Nat.toDigits_of_base_le (by omega) (by omega), List.map_append, List.take_append_of_le_length, heq]
      rw [List.length_map]
      exact Nat.length_toDigits_pos

theorem toNat_of_nonneg {M : Int32} (hM : 0 ≤ M) : M.toInt = (M.toInt.toNat : ℤ) := by
  have hle : (0 : Int32).toInt ≤ M.toInt := Int32.le_iff_toInt_le.mp hM
  rw [Int32.toInt_zero] at hle
  omega

theorem ofInt_digit_eq_iff {M : Int32} (hM : 0 ≤ M) {d : ℕ} (hd : d < 10) : Int32.ofInt d = M ↔ d = M.toInt.toNat := by
  have hnat := toNat_of_nonneg hM
  rw [← Int32.toInt_inj, Int32.toInt_ofInt_of_le (by omega) (by omega)]
  omega

theorem le_nine_iff {M : Int32} (hM : 0 ≤ M) : M ≤ 9 ↔ M.toInt.toNat < 10 := by
  have hnat := toNat_of_nonneg hM
  have hnine : (9 : Int32).toInt = 9 := by decide
  rw [Int32.le_iff_toInt_le, hnine]
  omega

/-- The bytes of a version number. -/
theorem bytes_getVersionStr {M m : Int32} (hM : 0 ≤ M) (hm : 0 ≤ m) : bytes (getVersionStr M m) =
    ['.'.toUInt8].intercalate [bytes (toString M.toInt.toNat), bytes (toString m.toInt.toNat)] := by
  have hM' : toString M.toInt = toString M.toInt.toNat := by rw [toNat_of_nonneg hM]; rfl
  have hm' : toString m.toInt = toString m.toInt.toNat := by rw [toNat_of_nonneg hm]; rfl
  have hdot : bytes "." = ['.'.toUInt8] := rfl
  rw [getVersionStr, hM', hm', bytes_append, bytes_append, hdot, intercalate_cons, joined, joined, List.append_assoc]
  rfl

/-- Of a version number only the first digits are read. -/
theorem stringSplit_getVersionStr {M m : Int32} (hM : 0 ≤ M) (hm : 0 ≤ m) :
    stringSplit (bytes (getVersionStr M m)) '.'.toUInt8 =
      .ok [(bytes (toString M.toInt.toNat)).take 1, (bytes (toString m.toInt.toNat)).take 1] := by
  rw [bytes_getVersionStr hM hm, stringSplit_intercalate '.'.toUInt8 fun q hq => ?_]
  · rfl
  · rcases List.mem_cons.mp hq with rfl | hq
    · exact bytes_toString_part _
    · rw [List.mem_singleton.mp hq]
      exact bytes_toString_part _

theorem getVersionNoAtPosition_getVersionStr {M m : Int32} (hM : 0 ≤ M) (hm : 0 ≤ m) {index : ℕ} {part : List UInt8}
    (hpart : [(bytes (toString M.toInt.toNat)).take 1, (bytes (toString m.toInt.toNat)).take 1][index]? = some part) :
    getVersionNoAtPosition (bytes (getVersionStr M m)) index = .ok (atoi part) := by
  have hcount : ¬ (bytes (getVersionStr M m)).count '.'.toUInt8 < 1 := by
    rw [bytes_getVersionStr hM hm, intercalate_cons, joined, List.count_append, List.count_cons_self]
    omega
  rw [getVersionNoAtPosition, if_neg hcount, stringSplit_getVersionStr hM hm, ok_bind, hpart]
  rfl

/-- The version that is read is the one that was printed iff it has one digit. -/
theorem atoi_toString_iff {M : Int32} (hM : 0 ≤ M) :
    (.ok (atoi ((bytes (toString M.toInt.toNat)).take 1)) : Except Exn Int32) = .ok M ↔ M ≤ 9 := by
  obtain ⟨d, hd, htake, heq⟩ := bytes_toString_take_one M.toInt.toNat
  rw [Except.ok.injEq, htake, atoi_digit hd, ofInt_digit_eq_iff hM hd, heq, le_nine_iff hM]

/-- Versions survive printing and reading exactly if both numbers have one digit, and parts survive joining
and splitting exactly if they are single bytes and at most 5000. -/
theorem versions_survive_iff {M m : Int32} (hM : 0 ≤ M) (hm : 0 ≤ m) {parts : List (List UInt8)} (hnil : parts ≠ [])
    (hparts : ∀ q ∈ parts, q ≠ [] ∧ '.'.toUInt8 ∉ q) :
    ((getMajorVersionFromString (bytes (getVersionStr M m)) = .ok M ∧
      getMinorVersionFromString (bytes (getVersionStr M m)) = .ok m) ↔ M ≤ 9 ∧ m ≤ 9) ∧
    (stringSplit (['.'.toUInt8].intercalate parts) '.'.toUInt8 = .ok parts ↔
      (∀ q ∈ parts, q.length = 1) ∧ parts.length ≤ 5000) := by
  refine ⟨?_, stringSplit_iff '.'.toUInt8 hnil hparts⟩
  rw [getMajorVersionFromString, getMinorVersionFromString, getVersionNoAtPosition_getVersionStr hM hm rfl,
    getVersionNoAtPosition_getVersionStr hM hm rfl, atoi_toString_iff hM, atoi_toString_iff hm]

theorem versions_survive_four :
    (getMajorVersionFromString (bytes (getVersionStr 4 0)) = .ok 4 ∧
      getMinorVersionFromString (bytes (getVersionStr 4 0)) = .ok 0) ∧
      stringSplit (bytes "0.2.0") '.'.toUInt8 = .ok [bytes "0", bytes "2", bytes "0"] := by
  have h := versions_survive_iff (M := 4) (m := 0) (by decide) (by decide)
    (show [bytes "0", bytes "2", bytes "0"] ≠ [] by decide) (by decide)
  exact ⟨h.1.mpr (by decide), h.2.mpr (by decide)⟩

/-- The major version of a generator 10.2 is read as 1; a letter of two bytes is cut in two. -/
theorem versions_lost_ten :
    getMajorVersionFromString (bytes (getVersionStr 10 2)) = .ok 1 ∧
      ¬ (getMajorVersionFromString (bytes (getVersionStr 10 2)) = .ok 10 ∧
        getMinorVersionFromString (bytes (getVersionStr 10 2)) = .ok 2) ∧
      stringSplit (['.'.toUInt8].intercalate [bytes "10", bytes "2"]) '.'.toUInt8 ≠ .ok [bytes "10", bytes "2"] ∧
      stringSplit (['.'.toUInt8].intercalate [bytes "é"]) '.'.toUInt8 ≠ .ok [bytes "é"] := by
  decide

end MetaCG.Util
