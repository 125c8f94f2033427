import MetaCG.Merge.MetaLoop
import MetaCG.Format.VersionFourMCGWriter

/-! The strings that stand for nodes in a file are different for different nodes.

With numbers this is the injectivity of decimal notation; with names a `#` separates the name from
the index, so no name may contain one. -/
namespace MetaCG
open Foundations
set_option autoImplicit false
set_option maxHeartbeats 250000
set_option maxRecDepth 120000

theorem toString_nat_injective {m n : ℕ} (h : toString m = toString n) : m = n := by
  have hdigits : Nat.toDigits 10 m = Nat.toDigits 10 n := by
    rw [← Nat.toList_repr, ← Nat.toList_repr]
    exact congrArg String.toList h
  rw [← Nat.ofDigitChars_toDigits (b := 10) (n := m) (by omega) (by omega), hdigits]
  exact Nat.ofDigitChars_toDigits (by omega) (by omega)

theorem isDigit_of_mem_toString {n : ℕ} {c : Char} (h : c ∈ (toString n).toList) : c.isDigit = true := by
  refine Nat.isDigit_of_mem_toDigits (b := 10) (n := n) (by omega) (by omega) ?_
  rw [← Nat.toList_repr]
  exact h

namespace Callgraph

/-- The string of a node; empty for an id without one. -/
def idStr (g : Callgraph) (useNameAsId : Bool) (i : ℕ) : String :=
  ((g.slot i).map (g.convertToStr useNameAsId)).getD ""

theorem idStr_eq {g : Callgraph} {i : ℕ} {n : CgNode} (h : g.slot i = some n) (b : Bool) :
    g.idStr b i = g.convertToStr b n := by
  rw [idStr, h]
  rfl

theorem getStrFromNode_eq {g : Callgraph} {i : ℕ} (h : g.hasNode i = true) (b : Bool) :
    g.getStrFromNode b i = .ok (g.idStr b i) := by
  obtain ⟨n, hn⟩ := (g.hasNode_iff i).mp h
  rw [getStrFromNode, getNode_of_lt (slot_lt hn), hn, idStr_eq hn]
  rfl

theorem hasNode_of_getStrFromNode {g : Callgraph} {i : ℕ} {b : Bool} {s : String}
    (h : g.getStrFromNode b i = .ok s) : g.hasNode i = true := by
  obtain ⟨p, hp, h⟩ := bind_eq_ok.mp h
  cases p with
  | none => cases h
  | some n => exact hasNode_of_slot (getNode_eq_ok hp).symm

/-- No name contains the separator. -/
def PlainNames (g : Callgraph) : Prop := ∀ n ∈ g.liveNodes, '#' ∉ n.functionName.toList

section
variable {g : Callgraph}

theorem Wf.mem_own_names (h : g.Wf) {i : ℕ} {n : CgNode} (hn : g.slot i = some n) :
    i ∈ g.getNodesNamed n.functionName := (h.mem_named _ i).mpr ⟨n, hn, rfl⟩

theorem Wf.idStr_number (h : g.Wf) {i : ℕ} (hi : g.hasNode i = true) : g.idStr false i = toString i := by
  obtain ⟨n, hn⟩ := (g.hasNode_iff i).mp hi
  rw [idStr_eq hn, convertToStr, if_neg (by decide), h.node_id i n hn]

theorem named_ne_indexed {n m : CgNode} (hn : '#' ∉ n.functionName.toList) (k : ℕ) :
    n.functionName ≠ m.functionName ++ ("#" ++ toString k) := by
  intro he
  apply hn
  rw [he, String.toList_append, String.toList_append]
  simp

theorem indexed_inj {a b : String} {k l : ℕ} (ha : '#' ∉ a.toList)
    (he : a ++ ("#" ++ toString k) = b ++ ("#" ++ toString l)) : a = b ∧ k = l := by
  have hlist := congrArg String.toList he
  simp only [String.toList_append] at hlist
  have hsep : ("#" : String).toList = ['#'] := rfl
  rw [hsep, List.singleton_append, List.singleton_append] at hlist
  have hk : '#' ∉ (toString k).toList := fun hmem => absurd (isDigit_of_mem_toString hmem) (by decide)
  obtain ⟨hab, -, hkl⟩ := (List.append_cons_inj_of_notMem ha hk).mp hlist
  exact ⟨String.toList_inj.mp hab, toString_nat_injective (String.toList_inj.mp hkl)⟩

/-- Different nodes have different strings. -/
theorem Wf.idStr_injective (h : g.Wf) {b : Bool} (hb : b = true → g.PlainNames) {i k : ℕ} (hi : g.hasNode i = true)
    (hk : g.hasNode k = true) (he : g.idStr b i = g.idStr b k) : i = k := by
  cases b with
  | false =>
    rw [h.idStr_number hi, h.idStr_number hk] at he
    exact toString_nat_injective he
  | true =>
    obtain ⟨n, hn⟩ := (g.hasNode_iff i).mp hi
    obtain ⟨m, hm⟩ := (g.hasNode_iff k).mp hk
    have hpn := hb rfl n ((g.mem_liveNodes n).mpr ⟨i, hn⟩)
    have hpm := hb rfl m ((g.mem_liveNodes m).mpr ⟨k, hm⟩)
    have hin := h.mem_own_names hn
    have hkm := h.mem_own_names hm
    rw [idStr_eq hn, idStr_eq hm] at he
    simp only [convertToStr, if_true, h.node_id i n hn, h.node_id k m hm] at he
    split_ifs at he with h1 h2 h2
    · obtain ⟨hname, hidx⟩ := indexed_inj hpn he
      rw [hname] at hin hidx
      exact (List.idxOf_inj hin).mp hidx
    · exact absurd he.symm (named_ne_indexed hpm _)
    · exact absurd he (named_ne_indexed hpn _)
    · rw [he] at hin h1
      obtain ⟨x, hx⟩ := List.length_eq_one_iff.mp
        (by have := List.length_pos_of_mem hin; omega : (g.getNodesNamed m.functionName).length = 1)
      rw [hx, List.mem_singleton] at hin hkm
      rw [hin, hkm]

theorem Wf.idStr_ne_empty (h : g.Wf) {b : Bool} {i : ℕ} (hi : g.hasNode i = true) : g.idStr b i ≠ "" := by
  obtain ⟨n, hn⟩ := (g.hasNode_iff i).mp hi
  cases b with
  | false =>
    rw [h.idStr_number hi]
    exact Nat.repr_ne_empty
  | true =>
    rw [idStr_eq hn, convertToStr, if_pos rfl]
    have hname := h.node_name i n hn
    simp only
    split_ifs with hlen
    · intro he
      have hlist := congrArg String.toList he
      simp [String.toList_append] at hlist
    · exact hname

end
end Callgraph
end MetaCG
