import Mathlib.Data.List.Nodup
import Mathlib.Data.List.Perm.Subperm
import Mathlib.Logic.Function.Basic

namespace Ed2kServer.Lib.Intrusive

/-- Positions of an array written as links, one of them the null link. -/
structure Links (I : Type) where
  idx : I → Nat
  idx_injective : Function.Injective idx
  null : I

variable {I : Type} {L : Links I}

/-- Following `next` from `cur` visits exactly `l` and ends at the null link. -/
def Chain (L : Links I) (next : List I) : I → List I → Prop
  | cur, [] => cur = L.null
  | cur, i :: l => cur = i ∧ i ≠ L.null ∧ ∃ n, next[L.idx i]? = some n ∧ Chain L next n l

theorem Chain.unique {next : List I} {cur : I} {l m : List I} (hl : Chain L next cur l)
    (hm : Chain L next cur m) : l = m := by
  induction l generalizing cur m with
  | nil =>
    cases m with
    | nil => rfl
    | cons j m => exact absurd (hm.1.symm.trans hl) hm.2.1
  | cons i l ih =>
    obtain ⟨rfl, hne, n, hn, hl⟩ := hl
    cases m with
    | nil => exact absurd hm hne
    | cons j m =>
      obtain ⟨rfl, -, n', hn', hm⟩ := hm
      obtain rfl : n = n' := Option.some.inj (hn.symm.trans hn')
      rw [ih hl hm]

theorem Chain.of_append {next : List I} {cur : I} {pre l : List I}
    (h : Chain L next cur (pre ++ l)) : ∃ c, Chain L next c l := by
  induction pre generalizing cur with
  | nil => exact ⟨cur, h⟩
  | cons i pre ih =>
    obtain ⟨-, -, n, -, hl⟩ := h
    exact ih hl

/-- A chain that ends cannot come back to a link. -/
theorem Chain.nodup {next : List I} {cur : I} {l : List I} (h : Chain L next cur l) :
    l.Nodup := by
  induction l generalizing cur with
  | nil => exact List.nodup_nil
  | cons i l ih =>
    obtain ⟨-, -, n, hn, hl⟩ := h
    refine List.nodup_cons.mpr ⟨fun hi => ?_, ih hl⟩
    obtain ⟨pre, post, rfl⟩ := List.append_of_mem hi
    obtain ⟨c, rfl, -, n', hn', hpost⟩ := hl.of_append
    obtain rfl : n = n' := Option.some.inj (hn.symm.trans hn')
    have hlen := congrArg List.length (hl.unique hpost)
    simp only [List.length_append, List.length_cons] at hlen
    omega

theorem Chain.lt_length {next : List I} {cur : I} {l : List I} (h : Chain L next cur l) {i : I}
    (hi : i ∈ l) : L.idx i < next.length := by
  induction l generalizing cur with
  | nil => cases hi
  | cons j l ih =>
    obtain ⟨-, -, n, hn, hl⟩ := h
    rcases List.mem_cons.mp hi with rfl | hi
    · exact (List.getElem?_eq_some_iff.mp hn).1
    · exact ih hl hi

theorem Chain.ne_null {next : List I} {cur : I} {l : List I} (h : Chain L next cur l) {i : I}
    (hi : i ∈ l) : i ≠ L.null := by
  induction l generalizing cur with
  | nil => cases hi
  | cons j l ih =>
    obtain ⟨-, hne, n, -, hl⟩ := h
    rcases List.mem_cons.mp hi with rfl | hi
    · exact hne
    · exact ih hl hi

theorem Chain.length_le {next : List I} {cur : I} {l : List I} (h : Chain L next cur l) :
    l.length ≤ next.length := by
  have hnd : (l.map L.idx).Nodup := h.nodup.map L.idx_injective
  have hsub : l.map L.idx ⊆ List.range next.length := by
    intro n hn
    obtain ⟨i, hi, rfl⟩ := List.mem_map.mp hn
    exact List.mem_range.mpr (h.lt_length hi)
  simpa using (List.subperm_of_subset hnd hsub).length_le

/-- Writing the link of a position off the chain changes nothing. -/
theorem Chain.set_of_notMem {next : List I} {cur i v : I} {l : List I} (h : Chain L next cur l)
    (hi : i ∉ l) : Chain L (next.set (L.idx i) v) cur l := by
  induction l generalizing cur with
  | nil => exact h
  | cons j l ih =>
    obtain ⟨hcur, hne, n, hn, hl⟩ := h
    obtain ⟨hij, hil⟩ := not_or.mp (mt List.mem_cons.mpr hi)
    refine ⟨hcur, hne, n, ?_, ih hl hil⟩
    rw [List.getElem?_set_ne (fun he => hij (L.idx_injective he)), hn]

theorem Chain.append_one {next : List I} {cur v : I} {l : List I} (h : Chain L next cur l) :
    Chain L (next ++ [v]) cur l := by
  induction l generalizing cur with
  | nil => exact h
  | cons j l ih =>
    obtain ⟨hcur, hne, n, hn, hl⟩ := h
    refine ⟨hcur, hne, n, ?_, ih hl⟩
    rw [List.getElem?_append_left (List.getElem?_eq_some_iff.mp hn).1, hn]

/-- Put a position in front of a chain. -/
theorem Chain.link {next : List I} {cur i : I} {l : List I} (h : Chain L next cur l)
    (hi : i ∉ l) (hne : i ≠ L.null) (hlt : L.idx i < next.length) :
    Chain L (next.set (L.idx i) cur) i (i :: l) :=
  ⟨rfl, hne, cur, by simp [hlt], h.set_of_notMem hi⟩

/-- Take the first position of a chain off it. -/
theorem Chain.unlink_head {next : List I} {i v : I} {l : List I} (h : Chain L next i (i :: l)) :
    ∃ n, next[L.idx i]? = some n ∧ Chain L (next.set (L.idx i) v) n l := by
  have hnd := List.nodup_cons.mp h.nodup
  obtain ⟨-, -, n, hn, hl⟩ := h
  exact ⟨n, hn, hl.set_of_notMem hnd.1⟩

/-- Take a later position off: the one before it gets its link. -/
theorem Chain.unlink_after {next : List I} {cur p i v n : I} {pre post : List I}
    (h : Chain L next cur (pre ++ p :: i :: post)) (hn : next[L.idx i]? = some n) :
    Chain L ((next.set (L.idx p) n).set (L.idx i) v) cur (pre ++ p :: post) := by
  have hnd := h.nodup
  induction pre generalizing cur with
  | nil =>
    obtain ⟨hcur, hne, q, hq, hl⟩ := h
    obtain ⟨-, hi, n', hn', hpost⟩ := hl
    obtain rfl : n = n' := Option.some.inj (hn.symm.trans hn')
    simp only [List.nil_append, List.nodup_cons, List.mem_cons, not_or] at hnd
    obtain ⟨⟨hpi, hpp⟩, hip, -⟩ := hnd
    refine ⟨hcur, hne, n, ?_, (hpost.set_of_notMem hpp).set_of_notMem hip⟩
    rw [List.getElem?_set_ne (fun he => hpi (L.idx_injective he).symm),
      List.getElem?_set_self (List.getElem?_eq_some_iff.mp hq).1]
  | cons j pre ih =>
    obtain ⟨hcur, hne, q, hq, hl⟩ := h
    have hnd' := List.nodup_cons.mp hnd
    have hjp : j ≠ p := fun he => hnd'.1 (by simp [he])
    have hji : j ≠ i := fun he => hnd'.1 (by simp [he])
    refine ⟨hcur, hne, q, ?_, ih hl hnd'.2⟩
    rw [List.getElem?_set_ne (fun he => hji (L.idx_injective he).symm),
      List.getElem?_set_ne (fun he => hjp (L.idx_injective he).symm), hq]

end Ed2kServer.Lib.Intrusive
