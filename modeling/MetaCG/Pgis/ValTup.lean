import MetaCG.Foundations.Groups
import MetaCG.Graph.MetaData

/-! `utils::valTup` (`Utility.h`), which `PiraTwoData::toJson` calls with the runtimes, the parameters and the number of
repetitions.

An iterator is the position that it points at. To read outside of the container or to advance beyond its end is undefined. -/
namespace MetaCG.Pgis.Utils
open Foundations
set_option autoImplicit false
set_option maxHeartbeats 250000
set_option maxRecDepth 120000

/-- The tuples, with the positions of `co` that have been read for them. The source does not keep the positions. -/
structure ValTup (α β : Type) where
  res : List (α × String × β)
  reads : List ℕ
deriving DecidableEq

section
variable {α β : Type}

/-- `startIt[n]`, and the position that it reads. -/
def subscript (co : List α) (startIt n : ℤ) : Except Exn (α × ℕ) :=
  if startIt + n < 0 then .error .undefined
  else match co[(startIt + n).toNat]? with
    | some v => .ok (v, (startIt + n).toNat)
    | none => .error .undefined

/-- `std::advance` -/
def advance (co : List α) (it n : ℤ) : Except Exn ℤ :=
  if 0 ≤ it + n ∧ it + n ≤ co.length then .ok (it + n) else .error .undefined

-- The index for an even number is one too great.
def median (co : List α) (startIt numElems : ℤ) : Except Exn (α × ℕ) :=
  if numElems.tmod 2 = 0 then subscript co startIt (numElems.tdiv 2 + 1) else subscript co startIt (numElems.tdiv 2)

/-- The loop of `valTup`. -/
def valTupLoop (co : List α) (name : String) (numReps coIt : ℤ) (ctIt : List β) (s : ValTup α β) : Except Exn (ValTup α β) :=
  match ctIt with
  | [] => .ok s
  | t :: ctIt =>
    if coIt = co.length then .ok s
    else do
      let (v, position) ← median co coIt numReps
      let coIt ← advance co coIt numReps
      valTupLoop co name numReps coIt ctIt ⟨s.res ++ [(v, name, t)], s.reads ++ [position]⟩

def valTup (co : List α) (ct : List (String × List β)) (numReps : ℤ) : Except Exn (ValTup α β) :=
  match ct with
  | [] => .ok ⟨[], []⟩
  | [(name, innerC)] => valTupLoop co name numReps 0 innerC ⟨[], []⟩
  | _ => .error (.assertion "Current limitation, only single parameter possible")

/-! ## The loop -/

/-- The index within a group that is read. -/
def readIndex (r : ℕ) : ℕ := if r % 2 = 0 then r / 2 + 1 else r / 2

/-- The first `n` values are paired, each with the element at `readIndex` of its group. -/
structure Paired (co : List α) (name : String) (values : List β) (r n : ℕ) (s : ValTup α β) : Prop where
  length_res : s.res.length = n
  length_reads : s.reads.length = n
  entry : ∀ i < n, ∃ v t, values[i]? = some t ∧ co[i * r + readIndex r]? = some v ∧ s.res[i]? = some (v, name, t) ∧
    s.reads[i]? = some (i * r + readIndex r)

section
variable {co : List α} {name : String} {values : List β} {r n i : ℕ} {s : ValTup α β} {v : α} {t : β}

theorem Paired.start : Paired co name values r 0 ⟨[], []⟩ where
  length_res := rfl
  length_reads := rfl
  entry := fun i hi => absurd hi (Nat.not_lt_zero i)

theorem Paired.push (h : Paired co name values r n s) (ht : values[n]? = some t) (hv : co[n * r + readIndex r]? = some v) :
    Paired co name values r (n + 1) ⟨s.res ++ [(v, name, t)], s.reads ++ [n * r + readIndex r]⟩ where
  length_res := by rw [List.length_append, h.length_res, List.length_singleton]
  length_reads := by rw [List.length_append, h.length_reads, List.length_singleton]
  entry := by
    intro i hi
    rcases Nat.lt_succ_iff_lt_or_eq.mp hi with hi | rfl
    · obtain ⟨w, u, hu, hw, hres, hreads⟩ := h.entry i hi
      refine ⟨w, u, hu, hw, ?_, ?_⟩
      · rw [List.getElem?_append_left (h.length_res.symm ▸ hi), hres]
      · rw [List.getElem?_append_left (h.length_reads.symm ▸ hi), hreads]
    · refine ⟨v, t, ht, hv, ?_, ?_⟩
      · rw [← h.length_res, List.getElem?_concat_length]
      · have hlast : (s.reads ++ [i * r + readIndex r])[s.reads.length]? = some (i * r + readIndex r) :=
          List.getElem?_concat_length
        rwa [h.length_reads] at hlast

theorem median_eq (co : List α) (i r : ℕ) : median co (i * r : ℕ) r = subscript co (i * r : ℕ) (readIndex r) := by
  have hmod : (r : ℤ).tmod 2 = 0 ↔ r % 2 = 0 := by
    rw [show (r : ℤ).tmod 2 = (r % 2 : ℕ) from rfl]
    omega
  have hdiv : (r : ℤ).tdiv 2 = (r / 2 : ℕ) := rfl
  unfold median readIndex
  simp only [hmod, hdiv]
  split_ifs <;> rfl

theorem subscript_ok {a b : ℕ} (hv : co[a + b]? = some v) : subscript co a b = .ok (v, a + b) := by
  have hpos : ((a : ℤ) + b).toNat = a + b := by omega
  unfold subscript
  rw [if_neg (by omega), hpos, hv]

theorem subscript_end {a b : ℕ} (hend : co[a + b]? = none) : subscript co a b = .error .undefined := by
  have hpos : ((a : ℤ) + b).toNat = a + b := by omega
  unfold subscript
  rw [if_neg (by omega), hpos, hend]

theorem advance_ok (h : (i + 1) * r ≤ co.length) : advance co (i * r : ℕ) r = .ok ((i + 1) * r : ℕ) := by
  have hnext : ((i * r : ℕ) : ℤ) + r = ((i + 1) * r : ℕ) := by
    rw [Nat.succ_mul]
    omega
  unfold advance
  rw [hnext, if_pos (by omega)]

/-- The loop pairs all values if it returns, and it returns if every element that is to be read exists. -/
theorem valTupLoop_spec (hr : 1 ≤ r) (hco : co.length = r * values.length) (pre rest : List β) (hvalues : values = pre ++ rest)
    (hs : Paired co name values r pre.length s) :
    (∀ out, valTupLoop co name r (pre.length * r : ℕ) rest s = .ok out → Paired co name values r values.length out) ∧
    ((∀ i < values.length, ∃ v, co[i * r + readIndex r]? = some v) →
      ∃ out, valTupLoop co name r (pre.length * r : ℕ) rest s = .ok out) := by
  induction rest generalizing pre s with
  | nil =>
    rw [List.append_nil] at hvalues
    subst hvalues
    exact ⟨fun out hrun => (by cases hrun; exact hs), fun _ => ⟨s, rfl⟩⟩
  | cons t rest ih =>
    have ht : values[pre.length]? = some t := by
      rw [hvalues, List.getElem?_append_right le_rfl, Nat.sub_self]
      rfl
    have hlt : pre.length < values.length := (List.getElem?_eq_some_iff.mp ht).1
    have hnext : (pre.length + 1) * r ≤ co.length := by
      rw [hco, mul_comm r]
      exact Nat.mul_le_mul_right r hlt
    have hgoes : ¬((pre.length * r : ℕ) : ℤ) = co.length := by
      rw [Nat.succ_mul] at hnext
      omega
    unfold valTupLoop
    rw [if_neg hgoes, median_eq]
    cases hv : co[pre.length * r + readIndex r]? with
    | none =>
      rw [subscript_end hv]
      refine ⟨fun out hrun => (by cases hrun), fun hall => ?_⟩
      obtain ⟨v, hsome⟩ := hall pre.length hlt
      rw [hv] at hsome
      cases hsome
    | some v =>
      rw [subscript_ok hv]
      simp only [bind, Except.bind, advance_ok hnext]
      have hstep := ih (pre ++ [t]) (by rw [hvalues, List.append_assoc, List.singleton_append])
        (by rw [List.length_append]; exact hs.push ht hv)
      rw [List.length_append] at hstep
      exact hstep

end

/-! ## The medians -/

/-- Every value is paired with a middle element of its group, and no element outside of this group is read for it. -/
def PairsMiddles (co : List α) (name : String) (values : List β) (numReps : ℕ) : Prop :=
  ∃ out, valTup co [(name, values)] numReps = .ok out ∧ out.res.length = values.length ∧ out.reads.length = values.length ∧
    ∀ i < values.length, ∃ v t p, values[i]? = some t ∧ out.res[i]? = some (v, name, t) ∧ IsMiddle (group co numReps i) v ∧
      out.reads[i]? = some p ∧ i * numReps ≤ p ∧ p < (i + 1) * numReps

/-- Every value is paired with the element at a middle index of its group. -/
def ReadsMiddles (co : List α) (name : String) (values : List β) (numReps : ℕ) : Prop :=
  ∃ out, valTup co [(name, values)] numReps = .ok out ∧
    ∀ i < values.length, out.reads[i]? = some (i * numReps + numReps / 2) ∨
      (numReps % 2 = 0 ∧ out.reads[i]? = some (i * numReps + (numReps / 2 - 1)))

section
variable {co : List α} {values : List β} {r i : ℕ} {v : α}

theorem valTup_paired (hr : 1 ≤ r) (hco : co.length = r * values.length) (name : String) :
    (∀ out, valTup co [(name, values)] r = .ok out → Paired co name values r values.length out) ∧
    ((∀ i < values.length, ∃ v, co[i * r + readIndex r]? = some v) → ∃ out, valTup co [(name, values)] r = .ok out) := by
  have hstart : Paired co name values r 0 ⟨[], []⟩ := .start
  have hloop := valTupLoop_spec hr hco [] values rfl hstart
  rwa [List.length_nil, Nat.zero_mul] at hloop

theorem group_within (hco : co.length = r * values.length) (hi : i < values.length) : (i + 1) * r ≤ co.length := by
  rw [hco, mul_comm r]
  exact Nat.mul_le_mul_right r hi

theorem readIndex_odd (hodd : r % 2 = 1) : readIndex r = r / 2 := if_neg (by omega)

theorem readIndex_even (heven : r % 2 = 0) : readIndex r = r / 2 + 1 := if_pos heven

/-- Where the element that is read belongs to the group, it exists. -/
theorem read_exists (hco : co.length = r * values.length) (hi : i < values.length) (hin : readIndex r < r) :
    ∃ v, co[i * r + readIndex r]? = some v := by
  have hwithin := group_within hco hi
  rw [Nat.succ_mul] at hwithin
  exact ⟨_, List.getElem?_eq_getElem (by omega)⟩

/-- Whether the element that is read is a middle one of its group. -/
theorem isMiddle_read_iff [PartialOrder α] (hco : co.length = r * values.length) (hi : i < values.length) (hin : readIndex r < r)
    (hsorted : (group co r i).Pairwise (· ≤ ·)) (hv : co[i * r + readIndex r]? = some v) :
    IsMiddle (group co r i) v ↔ r % 2 = 1 ∨ (group co r i)[r / 2 + 1]? = (group co r i)[r / 2]? := by
  have hlen : (group co r i).length = r := length_group (group_within hco hi)
  rw [← getElem?_group hin] at hv
  rcases Nat.mod_two_eq_zero_or_one r with heven | hodd
  · rw [readIndex_even heven] at hv
    rw [or_iff_right (by omega)]
    have hbehind := isMiddle_behind_iff hsorted (v := v)
    rw [hlen] at hbehind
    exact hbehind hv
  · rw [readIndex_odd hodd] at hv
    refine iff_of_true (.inl ?_) (.inl hodd)
    rwa [hlen]

theorem pairsMiddles_iff [PartialOrder α] (hr : 1 ≤ r) (hco : co.length = r * values.length)
    (hsorted : ∀ i < values.length, (group co r i).Pairwise (· ≤ ·)) (name : String) :
    PairsMiddles co name values r ↔ r % 2 = 1 ∨ ∀ i < values.length, (group co r i)[r / 2 + 1]? = (group co r i)[r / 2]? := by
  obtain ⟨hpaired, htotal⟩ := valTup_paired hr hco name
  constructor
  · rintro ⟨out, hrun, -, -, hentries⟩
    have hout := hpaired out hrun
    rcases Nat.mod_two_eq_zero_or_one r with heven | hodd
    · refine .inr fun i hi => ?_
      obtain ⟨v, t, p, -, hres, hmiddle, hreads, -, hp⟩ := hentries i hi
      obtain ⟨w, u, -, hw, hres', hreads'⟩ := hout.entry i hi
      cases hreads.symm.trans hreads'
      cases hres.symm.trans hres'
      rw [Nat.succ_mul] at hp
      refine ((isMiddle_read_iff hco hi (by omega) (hsorted i hi) hw).mp hmiddle).resolve_left ?_
      omega
    · exact .inl hodd
  · intro hcond
    have hin : ∀ i < values.length, readIndex r < r := by
      intro i hi
      rcases Nat.mod_two_eq_zero_or_one r with heven | hodd
      · have hequal := hcond.resolve_left (by omega) i hi
        have hlen : (group co r i).length = r := length_group (group_within hco hi)
        rw [List.getElem?_eq_getElem (by omega : r / 2 < (group co r i).length)] at hequal
        have hbehind := (List.getElem?_eq_some_iff.mp hequal).1
        rw [readIndex_even heven]
        omega
      · rw [readIndex_odd hodd]
        omega
    obtain ⟨out, hrun⟩ := htotal fun i hi => read_exists hco hi (hin i hi)
    have hout := hpaired out hrun
    refine ⟨out, hrun, hout.length_res, hout.length_reads, fun i hi => ?_⟩
    obtain ⟨v, t, ht, hv, hres, hreads⟩ := hout.entry i hi
    refine ⟨v, t, _, ht, hres, ?_, hreads, Nat.le_add_right .., ?_⟩
    · exact (isMiddle_read_iff hco hi (hin i hi) (hsorted i hi) hv).mpr (hcond.imp_right fun hall => hall i hi)
    · rw [Nat.succ_mul]
      exact Nat.add_lt_add_left (hin i hi) _

theorem readsMiddles_iff (hr : 1 ≤ r) (hco : co.length = r * values.length) (name : String) :
    ReadsMiddles co name values r ↔ r % 2 = 1 ∨ values = [] := by
  obtain ⟨hpaired, htotal⟩ := valTup_paired hr hco name
  constructor
  · rintro ⟨out, hrun, hmiddle⟩
    by_contra hneither
    rw [not_or] at hneither
    obtain ⟨heven, hne⟩ := hneither
    have hpos : 0 < values.length := List.length_pos_iff.mpr hne
    obtain ⟨v, t, -, -, -, hreads⟩ := (hpaired out hrun).entry 0 hpos
    have hchoice := hmiddle 0 hpos
    rw [hreads, readIndex_even (by omega), Option.some.injEq, Option.some.injEq] at hchoice
    omega
  · intro hcond
    have hin : ∀ i < values.length, r % 2 = 1 := fun i hi =>
      hcond.resolve_right fun hnil => Nat.not_lt_zero i (by rwa [hnil] at hi)
    obtain ⟨out, hrun⟩ := htotal fun i hi => read_exists hco hi (by rw [readIndex_odd (hin i hi)]; omega)
    refine ⟨out, hrun, fun i hi => .inl ?_⟩
    obtain ⟨v, t, -, -, -, hreads⟩ := (hpaired out hrun).entry i hi
    rw [hreads, readIndex_odd (hin i hi)]

/-- The values are paired with middle elements if and only if the number of repetitions is odd, or in every group the element
behind the middle ones exists and equals the upper middle one. The index is right for an odd number alone. -/
theorem valTup_pairsMiddles_iff [PartialOrder α] (hr : 1 ≤ r) (hco : co.length = r * values.length)
    (hsorted : ∀ i < values.length, (group co r i).Pairwise (· ≤ ·)) (name : String) :
    (PairsMiddles co name values r ↔
      r % 2 = 1 ∨ ∀ i < values.length, (group co r i)[r / 2 + 1]? = (group co r i)[r / 2]?) ∧
    (ReadsMiddles co name values r ↔ r % 2 = 1 ∨ values = []) :=
  ⟨pairsMiddles_iff hr hco hsorted name, readsMiddles_iff hr hco name⟩

end

end

/-! ## Four repetitions, and two

With four the greatest one is taken. With two the next group is read, and behind the last group there is none. -/

theorem not_pairsMiddles_four :
    ¬PairsMiddles [1, 2, 3, 4] "n" [10] 4 ∧ valTup [1, 2, 3, 4] [("n", [10])] 4 = .ok ⟨[(4, "n", 10)], [3]⟩ ∧
      valTup [1, 2, 3, 4] [("n", [10, 20])] 2 = .error .undefined := by
  refine ⟨fun hpairs => ?_, rfl, rfl⟩
  have hiff : PairsMiddles [1, 2, 3, 4] "n" [10] 4 ↔ _ := pairsMiddles_iff (by decide) rfl (by decide) "n"
  exact absurd (hiff.mp hpairs) (by decide)

theorem valTup_pairsMiddles_four :
    (PairsMiddles [1, 2, 3, 4] "n" [10] 4 ↔
      4 % 2 = 1 ∨ ∀ i < [10].length, (group [1, 2, 3, 4] 4 i)[4 / 2 + 1]? = (group [1, 2, 3, 4] 4 i)[4 / 2]?) ∧
    (ReadsMiddles [1, 2, 3, 4] "n" [10] 4 ↔ 4 % 2 = 1 ∨ [10] = []) :=
  valTup_pairsMiddles_iff (by decide) rfl (by decide) "n"

end MetaCG.Pgis.Utils
