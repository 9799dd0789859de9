import Ed2kServer.Updates.Merge

namespace Ed2kServer.Updates.MergeSound

open Ed2kServer.Slab.Record Ed2kServer.Text.Lines Ed2kServer.Filter.Loaders
open Ed2kServer.Updates.Validate Ed2kServer.Updates.Merge

/-- Lines joined, with a newline behind the last unless one stands there. -/
def finish (ls : List Str) : Str :=
  let s := ['\n'].intercalate ls
  if s.getLast? = some '\n' then s else s ++ ['\n']

/-- A line stays, or a bare line of a hash became an annotated one. -/
def Kept (a b : Str) : Prop :=
  b = a ∨ ∃ h, takes h a = true ∧ lineHasComment a = false ∧ takes h b = true ∧
    lineHasComment b = true

/-- What the lines of a merged text should be. -/
structure Union (old new out : List Str) : Prop where
  kept : ∃ kept added, out = kept ++ added ∧ List.Forall₂ Kept old kept ∧
    ∀ h, old.any (takes h) = false → new.any (takes h) = true → added.countP (takes h) = 1
  hashes : ∀ h, out.any (takes h) = (old.any (takes h) || new.any (takes h))
  annotated : ∀ h, ∀ line ∈ old ++ new, takes h line = true → lineHasComment line = true →
    ∃ l ∈ out, takes h l = true ∧ lineHasComment l = true

/-- The merge gives a text, the right one, and the next merge of the same list leaves it. -/
def MergesWell (old new stamp : Str) : Prop :=
  ∃ s, mergeHashLists old new stamp = some s ∧ Union (lines old) (lines new) (lines s) ∧
    ∀ stamp', mergeHashLists s new stamp' = some s

/-- The bare first line of a hash that the new list annotates. -/
def Replaced (old new : List Str) (i : Nat) (line : Str) : Prop :=
  ∃ h, takes h line = true ∧ old.findIdx? (takes h) = some i ∧ lineHasComment line = false ∧
    ∃ l ∈ new, takes h l = true ∧ lineHasComment l = true

/-- No new hash comes twice, no line that stays ends with a return, and if nothing is appended
the last of several lines is not empty. -/
structure Mergeable (old new : List Str) : Prop where
  once : NoTwice old new
  returns : ∀ i line, old[i]? = some line → line.getLast? = some '\r' → Replaced old new i line
  last : new.any (fresh old) = true ∨ old.length ≤ 1 ∨ old.getLast? ≠ some []

section Finish

variable {ls : List Str}

theorem finish_ends (ls : List Str) : (finish ls).getLast? = some '\n' := by
  rw [finish]
  split_ifs with h
  · exact h
  · exact List.getLast?_concat

/-- Every line is a piece between newlines. -/
theorem piece_of_finish (hfree : ∀ l ∈ ls, '\n' ∉ l) {i : Nat} {line : Str}
    (hi : ls[i]? = some line) : ((finish ls).splitOn '\n')[i]? = some line := by
  have hls : ls ≠ [] := by
    rintro rfl
    cases hi
  rw [finish]
  split_ifs
  · rw [List.splitOn_intercalate '\n' hfree hls, hi]
  · rw [← intercalate_concat hls [], List.splitOn_intercalate '\n' _ (by simp),
      List.getElem?_append_left (List.getElem?_eq_some_iff.mp hi).1, hi]
    intro l hl
    obtain hl | hl := List.mem_append.mp hl
    · exact hfree l hl
    · rw [List.mem_singleton.mp hl]
      exact List.not_mem_nil

theorem getLast?_intercalate (hls : ls ≠ []) (hlast : ls.getLast? ≠ some []) :
    (['\n'].intercalate ls).getLast? = ls.getLast?.bind List.getLast? := by
  obtain ⟨before, last, rfl⟩ := List.eq_nil_or_concat ls |>.resolve_left hls
  rw [List.concat_eq_append, List.getLast?_concat] at hlast ⊢
  rw [Option.bind_some]
  cases before with
  | nil => simp
  | cons l before =>
    have hne : last ≠ [] := fun h => hlast (congrArg some h)
    rw [intercalate_concat (List.cons_ne_nil _ _), List.getLast?_append_of_ne_nil _ (by simp),
      List.getLast?_cons_of_ne_nil hne]

/-- Without an empty line at the end the lines are read back, but for returns. -/
theorem lines_finish (hfree : ∀ l ∈ ls, '\n' ∉ l) (hls : ls ≠ [])
    (hlast : ls.length ≤ 1 ∨ ls.getLast? ≠ some []) :
    lines (finish ls) = ls.map stripReturn := by
  have hend : (['\n'].intercalate ls).getLast? ≠ some '\n' := by
    by_cases hempty : ls.getLast? = some []
    · obtain ⟨before, rfl⟩ := List.getLast?_eq_some_iff.mp hempty
      obtain rfl : before = [] := by
        obtain hlen | hne := hlast
        · rw [List.length_append, List.length_singleton] at hlen
          exact List.length_eq_zero_iff.mp (by omega)
        · exact absurd hempty hne
      simp
    · rw [getLast?_intercalate hls hempty]
      intro h
      obtain ⟨last, hmem, hc⟩ := Option.bind_eq_some_iff.mp h
      exact hfree last (List.mem_of_getLast? hmem) (List.mem_of_getLast? hc)
  have hfree' : ∀ l ∈ ls ++ [[]], '\n' ∉ l := by
    intro l hl
    obtain hl | hl := List.mem_append.mp hl
    · exact hfree l hl
    · rw [List.mem_singleton.mp hl]
      exact List.not_mem_nil
  rw [finish, if_neg hend, lines, ← intercalate_concat hls [],
    List.splitOn_intercalate '\n' hfree' (by simp)]
  simp only [List.dropLast_concat, List.getLast?_concat, Option.getD_some, if_true,
    List.append_nil]

end Finish

section Lists

variable {old new : List Str} {stamp : Str} {h : FileHash} {line : Str} {i : Nat}

theorem mergeHashLists_eq {old new stamp s : Str} : mergeHashLists old new stamp = some s ↔
    NoTwice (lines old) (lines new) ∧
      finish (outputLines (merged (lines old) (lines new)) stamp) = s := by
  rw [mergeHashLists, Option.bind_eq_bind, Option.bind_eq_some_iff]
  constructor
  · rintro ⟨m, hm, hs⟩
    obtain ⟨hno, rfl⟩ := foldlM_mergeLine.mp hm
    exact ⟨hno, Option.some.inj hs⟩
  · rintro ⟨hno, rfl⟩
    exact ⟨_, foldlM_mergeLine.mpr ⟨hno, rfl⟩, rfl⟩

theorem takes_nil (h : FileHash) : takes h [] = false := rfl

theorem takes_header (h : FileHash) (n : Nat) (stamp : Str) :
    takes h (mergeHeader n stamp) = false := takes_comment h _

theorem findIdx_none_iff : old.findIdx? (takes h) = none ↔ old.any (takes h) = false := by
  rw [List.findIdx?_eq_none_iff, List.any_eq_false]
  simp

/-- What follows the old lines. -/
def added (m : Merging) (stamp : Str) : List Str :=
  if m.appended = [] then []
  else (if m.out.getLast?.any (fun last => !(trim last).isEmpty) then [[]] else []) ++
    mergeHeader m.appended.length stamp :: m.appended

theorem outputLines_eq (m : Merging) (stamp : Str) :
    outputLines m stamp = m.out ++ added m stamp := by
  rw [outputLines, added]
  split_ifs
  · rw [List.append_nil]
  · rw [List.append_assoc]
  · rw [List.append_assoc]

theorem added_filter (m : Merging) (stamp : Str) (h : FileHash) :
    (added m stamp).filter (takes h) = m.appended.filter (takes h) := by
  rw [added]
  split_ifs with hnone <;> simp [*, takes_nil, takes_header]

theorem filter_appended (hold : old.any (takes h) = false) (new : List Str) :
    (merged old new).appended.filter (takes h) = (new.filter (takes h)).map trimEnd := by
  have htrim : takes h ∘ trimEnd = takes h := funext (takes_trimEnd h)
  have hfresh (l : Str) : (takes h l && fresh old l) = takes h l := by
    cases ht : takes h l with
    | false => rfl
    | true => rw [(fresh_of_takes ht).mpr (findIdx_none_iff.mpr hold), Bool.true_and]
  change ((new.filter (fresh old)).map trimEnd).filter (takes h) = _
  rw [List.filter_map, htrim, List.filter_filter]
  simp only [hfresh]

/-- The first line of a hash of the old list, as it stands in the end. -/
theorem find_out (old new : List Str) (h : FileHash) :
    (merged old new).out.find? (takes h) = (old.find? (takes h)).map (finalLine new h) := by
  cases hi : old.findIdx? (takes h) with
  | none =>
    have hnone := List.findIdx?_eq_none_iff.mp hi
    have hfirst : old.find? (takes h) = none :=
      List.find?_eq_none.mpr fun l hl => by simp [hnone l hl]
    rw [hfirst, Option.map_none, List.find?_eq_none]
    intro l hl
    obtain ⟨j, hj, rfl⟩ := List.mem_mapIdx.mp hl
    rw [takes_upgrade, hnone _ (List.getElem_mem hj)]
    exact Bool.false_ne_true
  | some i =>
    obtain ⟨hlt, hp, hbefore⟩ := List.findIdx?_eq_some_iff_getElem.mp hi
    have hfirst : old.find? (takes h) = some old[i] :=
      List.find?_eq_some_iff_getElem.mpr ⟨hp, i, hlt, rfl, fun j hj => by simpa using hbefore j hj⟩
    have hlen : (merged old new).out.length = old.length := List.length_mapIdx
    rw [hfirst, Option.map_some, List.find?_eq_some_iff_getElem]
    refine ⟨takes_finalLine hp new, i, by rw [hlen]; exact hlt, ?_, fun j hj => ?_⟩
    · exact (List.getElem_mapIdx ..).trans (upgrade_of_findIdx hi hp new)
    · have hj' := hbefore j hj
      simp only [merged, List.getElem_mapIdx, takes_upgrade]
      simpa using hj'

theorem finalLine_annotated {l : Str} (hl : l ∈ new) (ht : takes h l = true)
    (hc : lineHasComment l = true) (line : Str) : lineHasComment (finalLine new h line) = true := by
  rw [finalLine]
  split_ifs with hline
  · exact hline
  · cases hfind : new.find? fun l => takes h l && lineHasComment l with
    | none =>
      have hno := List.find?_eq_none.mp hfind l hl
      rw [ht, hc] at hno
      exact absurd rfl hno
    | some l' =>
      have hl' := List.find?_some hfind
      rw [Bool.and_eq_true] at hl'
      exact (lineHasComment_trimEnd l').trans hl'.2

theorem upgrade_annotated (hc : lineHasComment line = true) (old new : List Str) (i : Nat) :
    upgrade old new i line = line := by
  rw [upgrade]
  split
  · rw [finalLine, if_pos hc, ite_self]
  · rfl

/-- An old line changes only where it is replaced, and then to a trimmed annotated line. -/
theorem upgrade_cases (old new : List Str) (i : Nat) (line : Str) :
    upgrade old new i line = line ∨ Replaced old new i line ∧
      ∃ h l, takes h line = true ∧ takes h l = true ∧ lineHasComment l = true ∧
        upgrade old new i line = trimEnd l := by
  rw [upgrade]
  cases hk : hashOfLine line with
  | comment => exact Or.inl rfl
  | junk => exact Or.inl rfl
  | hash h =>
    have ht : takes h line = true := takes_iff.mpr hk
    simp only
    split_ifs with hi
    · rw [finalLine]
      split_ifs with hc
      · exact Or.inl rfl
      · cases hfind : new.find? fun l => takes h l && lineHasComment l with
        | none => exact Or.inl rfl
        | some l =>
          have hl := List.find?_some hfind
          rw [Bool.and_eq_true] at hl
          exact Or.inr ⟨⟨h, ht, hi, by simpa using hc, l, List.mem_of_find?_eq_some hfind, hl⟩,
            h, l, ht, hl.1, hl.2, rfl⟩
    · exact Or.inl rfl

theorem upgrade_kept (old new : List Str) (i : Nat) (line : Str) :
    Kept line (upgrade old new i line) := by
  obtain heq | ⟨⟨h', ht', -, hbare, -⟩, h, l, ht, htl, hc, heq⟩ := upgrade_cases old new i line
  · exact Or.inl heq
  · exact Or.inr ⟨h, ht, hbare, by rw [heq, takes_trimEnd, htl],
      by rw [heq, lineHasComment_trimEnd, hc]⟩

theorem any_iff_find {ls : List Str} {p : Str → Bool} : ls.any p = (ls.find? p).isSome := by
  rw [Bool.eq_iff_iff, List.any_eq_true, List.find?_isSome]

theorem any_iff_filter {ls : List Str} {p : Str → Bool} : ls.any p = true ↔ ls.filter p ≠ [] := by
  rw [List.any_eq_true, ne_eq, List.filter_eq_nil_iff]
  simp

theorem any_out (old new : List Str) (h : FileHash) :
    (merged old new).out.any (takes h) = old.any (takes h) := by
  rw [any_iff_find, any_iff_find, find_out, Option.isSome_map]

theorem any_added (m : Merging) (stamp : Str) (h : FileHash) :
    (added m stamp).any (takes h) = m.appended.any (takes h) := by
  rw [Bool.eq_iff_iff, any_iff_filter, any_iff_filter, added_filter]

/-- The lines of the merge, and blank ones behind them. -/
theorem union_merged (hno : NoTwice old new) {extra : List Str} (hextra : ∀ l ∈ extra, l = [])
    (stamp : Str) : Union old new (outputLines (merged old new) stamp ++ extra) := by
  have hblank (h : FileHash) : extra.filter (takes h) = [] := by
    rw [List.filter_eq_nil_iff]
    intro l hl
    rw [hextra l hl]
    exact Bool.false_ne_true
  rw [outputLines_eq, List.append_assoc]
  refine ⟨⟨_, _, rfl, ?_, fun h hold hnew => ?_⟩, fun h => ?_, fun h l hl ht hc => ?_⟩
  · refine List.forall₂_iff_get.mpr ⟨List.length_mapIdx.symm, fun i hi hi' => ?_⟩
    have hget : (merged old new).out.get ⟨i, hi'⟩ = upgrade old new i old[i] :=
      List.getElem_mapIdx ..
    rw [hget]
    exact upgrade_kept old new i _
  · rw [List.countP_eq_length_filter, List.filter_append, added_filter, hblank,
      filter_appended hold, List.append_nil, List.length_map, ← List.countP_eq_length_filter]
    obtain ⟨l, hl, ht⟩ := List.any_eq_true.mp hnew
    exact Nat.le_antisymm (hno h (findIdx_none_iff.mpr hold))
      (List.countP_pos_iff.mpr ⟨l, hl, ht⟩)
  · have hextra' : extra.any (takes h) = false := by
      rw [← Bool.not_eq_true, any_iff_filter, not_not, hblank]
    rw [List.any_append, List.any_append, any_out, any_added, hextra', Bool.or_false]
    cases hold : old.any (takes h) with
    | true => rfl
    | false =>
      rw [Bool.false_or, Bool.false_or, Bool.eq_iff_iff, any_iff_filter, any_iff_filter,
        filter_appended hold, ne_eq, List.map_eq_nil_iff]
  · obtain hl | hl := List.mem_append.mp hl
    · obtain ⟨i, hi, rfl⟩ := List.getElem_of_mem hl
      refine ⟨old[i], List.mem_append_left _ (List.mem_mapIdx.mpr ⟨i, hi, ?_⟩), ht, hc⟩
      exact upgrade_annotated hc old new i
    · cases hold : old.any (takes h) with
      | true =>
        rw [any_iff_find, Option.isSome_iff_exists] at hold
        obtain ⟨first, hfirst⟩ := hold
        have hfind := find_out old new h
        rw [hfirst, Option.map_some] at hfind
        exact ⟨_, List.mem_append_left _ (List.mem_of_find?_eq_some hfind), List.find?_some hfind,
          finalLine_annotated hl ht hc first⟩
      | false =>
        have hmem : trimEnd l ∈ (added (merged old new) stamp).filter (takes h) := by
          rw [added_filter, filter_appended hold]
          exact List.mem_map_of_mem (List.mem_filter.mpr ⟨hl, ht⟩)
        have hmem := (List.mem_filter.mp hmem).1
        exact ⟨trimEnd l, List.mem_append_right _ (List.mem_append_left _ hmem),
          by rw [takes_trimEnd, ht], by rw [lineHasComment_trimEnd, hc]⟩

/-- The first line of a hash in the output is annotated, where the new list annotates the hash. -/
theorem find_output_annotated (hno : NoTwice old new) {l : Str} (hl : l ∈ new)
    (ht : takes h l = true) (hc : lineHasComment l = true) (extra : List Str) {first : Str}
    (hfirst : (outputLines (merged old new) stamp ++ extra).find? (takes h) = some first) :
    lineHasComment first = true := by
  rw [outputLines_eq, List.append_assoc, List.find?_append, find_out] at hfirst
  cases hold : old.find? (takes h) with
  | some line =>
    rw [hold, Option.map_some, Option.some_or] at hfirst
    rw [← Option.some.inj hfirst]
    exact finalLine_annotated hl ht hc line
  | none =>
    have hany : old.any (takes h) = false := by rw [any_iff_find, hold]; rfl
    have hfilter : (added (merged old new) stamp).filter (takes h) = [trimEnd l] := by
      have hone := hno h (findIdx_none_iff.mpr hany)
      rw [List.countP_eq_length_filter] at hone
      obtain ⟨l', hl'⟩ := List.length_eq_one_iff.mp
        (Nat.le_antisymm hone (List.length_pos_of_mem (List.mem_filter.mpr ⟨hl, ht⟩)))
      have hmem : l ∈ new.filter (takes h) := List.mem_filter.mpr ⟨hl, ht⟩
      rw [hl', List.mem_singleton] at hmem
      rw [added_filter, filter_appended hany, hl', ← hmem, List.map_singleton]
    rw [hold, Option.map_none, Option.none_or, List.find?_append, ← List.head?_filter, hfilter,
      List.head?_cons, Option.some_or] at hfirst
    rw [← Option.some.inj hfirst, lineHasComment_trimEnd, hc]

/-- A list with every hash of the new one, annotated where that annotates it, is left alone. -/
theorem merge_again (new : List Str) {out : List Str}
    (hhas : ∀ h, new.any (takes h) = true → out.any (takes h) = true)
    (hann : ∀ h l first, l ∈ new → takes h l = true → lineHasComment l = true →
      out.find? (takes h) = some first → lineHasComment first = true) (stamp : Str) :
    NoTwice out new ∧ outputLines (merged out new) stamp = out := by
  have hout : out.mapIdx (upgrade out new) = out := by
    refine List.ext_getElem? fun i => ?_
    rw [List.getElem?_mapIdx]
    cases hi : out[i]? with
    | none => rfl
    | some line =>
      rw [Option.map_some]
      obtain heq | ⟨⟨h, ht, hidx, hbare, l, hl, htl, hc⟩, -⟩ := upgrade_cases out new i line
      · rw [heq]
      · obtain ⟨hlt, hp, hbefore⟩ := List.findIdx?_eq_some_iff_getElem.mp hidx
        have hfirst : out.find? (takes h) = some line := by
          refine List.find?_eq_some_iff_getElem.mpr
            ⟨ht, i, hlt, ?_, fun j hj => by simpa using hbefore j hj⟩
          exact Option.some.inj ((List.getElem?_eq_getElem hlt).symm.trans hi)
        rw [hann h l line hl htl hc hfirst] at hbare
        cases hbare
  have happended : (merged out new).appended = [] := by
    rw [List.eq_nil_iff_forall_not_mem]
    intro line hline
    obtain ⟨l, hl, hfresh, -⟩ := mem_appended.mp hline
    rw [fresh] at hfresh
    cases hk : hashOfLine l with
    | comment => simp [hk] at hfresh
    | junk => simp [hk] at hfresh
    | hash h =>
      simp only [hk, Option.isNone_iff_eq_none] at hfresh
      have hsome := hhas h (List.any_eq_true.mpr ⟨l, hl, takes_iff.mpr hk⟩)
      rw [findIdx_none_iff.mp hfresh] at hsome
      cases hsome
  refine ⟨fun h hnone => ?_, by rw [outputLines, if_pos happended]; exact hout⟩
  have hnew : new.any (takes h) = false := by
    rw [← Bool.not_eq_true]
    intro hany
    have hsome := hhas h hany
    rw [findIdx_none_iff.mp hnone] at hsome
    cases hsome
  rw [List.countP_eq_zero.mpr (List.any_eq_false.mp hnew)]
  exact Nat.zero_le 1

theorem upgrade_replaced (hr : Replaced old new i line) :
    ∃ h l, takes h l = true ∧ upgrade old new i line = trimEnd l := by
  obtain heq | ⟨-, h, l, -, ht, -, heq⟩ := upgrade_cases old new i line
  · obtain ⟨h, ht, hi, hbare, l, hl, htl, hc⟩ := hr
    have hann := finalLine_annotated hl htl hc line
    rw [← upgrade_of_findIdx hi ht new, heq, hbare] at hann
    cases hann
  · exact ⟨h, l, ht, heq⟩

theorem trimEnd_last (s : Str) : (trimEnd s).getLast? ≠ some '\r' := by
  intro h
  have hne : trimEnd s ≠ [] := by
    intro hnil
    rw [hnil] at h
    cases h
  have hlast : ¬isWhitespace ((trimEnd s).getLast hne) = true :=
    List.rdropWhile_last_not isWhitespace s hne
  rw [List.getLast?_eq_getLast_of_ne_nil hne, Option.some.injEq] at h
  rw [h] at hlast
  exact hlast (by decide)

theorem getLast?_append_eq {x y z : Str} {c : Char} (h : y = z ++ [c]) :
    (x ++ y).getLast? = some c := by
  rw [h, ← List.append_assoc]
  exact List.getLast?_concat

theorem header_last (n : Nat) (stamp : Str) : (mergeHeader n stamp).getLast? = some '─' :=
  getLast?_append_eq (z := [' ', '─']) (by simp)

theorem trimEnd_ne_nil (ht : takes h line = true) : trimEnd line ≠ [] := by
  intro hnil
  rw [← takes_trimEnd, hnil, takes_nil] at ht
  cases ht

/-- No line of the output ends with a return. -/
theorem output_last (hm : Mergeable old new) (stamp : Str) :
    ∀ l ∈ outputLines (merged old new) stamp, l.getLast? ≠ some '\r' := by
  intro l hl
  rw [outputLines_eq] at hl
  obtain hl | hl := List.mem_append.mp hl
  · obtain ⟨i, hi, rfl⟩ := List.mem_mapIdx.mp hl
    obtain heq | ⟨hr, -⟩ := upgrade_cases old new i old[i]
    · intro hlast
      have hr := hm.returns i old[i] (List.getElem?_eq_getElem hi) (by rwa [heq] at hlast)
      obtain ⟨h, l, -, heq⟩ := upgrade_replaced hr
      rw [heq] at hlast
      exact trimEnd_last l hlast
    · obtain ⟨h, l, -, heq⟩ := upgrade_replaced hr
      rw [heq]
      exact trimEnd_last l
  · rw [added] at hl
    split_ifs at hl with hnone hsep
    · cases hl
    · simp only [List.singleton_append, List.mem_cons] at hl
      obtain rfl | rfl | hl := hl
      · exact fun h => absurd h (by decide)
      · rw [header_last]
        decide
      · obtain ⟨l', -, -, rfl⟩ := mem_appended.mp hl
        exact trimEnd_last l'
    · simp only [List.nil_append, List.mem_cons] at hl
      obtain rfl | hl := hl
      · rw [header_last]
        decide
      · obtain ⟨l', -, -, rfl⟩ := mem_appended.mp hl
        exact trimEnd_last l'

theorem takes_of_fresh (hf : fresh old line = true) : ∃ h, takes h line = true := by
  rw [fresh] at hf
  cases hk : hashOfLine line with
  | hash h => exact ⟨h, takes_iff.mpr hk⟩
  | comment => simp [hk] at hf
  | junk => simp [hk] at hf

/-- The output does not end with a lost blank line. -/
theorem output_end (hm : Mergeable old new) (stamp : Str) :
    (outputLines (merged old new) stamp).length ≤ 1 ∨
      (outputLines (merged old new) stamp).getLast? ≠ some [] := by
  by_cases hnone : (merged old new).appended = []
  · rw [outputLines, if_pos hnone]
    have hfresh : new.any (fresh old) = false := by
      rw [← Bool.not_eq_true, any_iff_filter, not_not]
      exact List.map_eq_nil_iff.mp hnone
    obtain hany | hlen | hlast := hm.last
    · rw [hfresh] at hany
      cases hany
    · exact Or.inl (by rw [merged, List.length_mapIdx]; exact hlen)
    · refine Or.inr fun h => hlast ?_
      have hlen : (merged old new).out.length = old.length := List.length_mapIdx
      rw [List.getLast?_eq_getElem?, hlen, out_getElem?, Option.map_eq_some_iff] at h
      obtain ⟨line, hline, hnil⟩ := h
      rw [List.getLast?_eq_getElem?, hline]
      obtain heq | ⟨-, h, l, -, ht, -, heq⟩ := upgrade_cases old new (old.length - 1) line
      · rw [← heq, hnil]
      · exact absurd (heq.symm.trans hnil) (trimEnd_ne_nil ht)
  · obtain ⟨before, last, hlast⟩ := List.eq_nil_or_concat (merged old new).appended
      |>.resolve_left hnone
    have hmem : last ∈ (merged old new).appended := by
      rw [hlast, List.concat_eq_append]
      exact List.mem_append_right _ (List.mem_singleton_self last)
    obtain ⟨l, -, hf, rfl⟩ := mem_appended.mp hmem
    obtain ⟨h, ht⟩ := takes_of_fresh hf
    refine Or.inr fun hend => trimEnd_ne_nil ht ?_
    rw [outputLines, if_neg hnone, hlast, List.concat_eq_append, ← List.cons_append,
      ← List.append_assoc, List.getLast?_concat] at hend
    exact Option.some.inj hend

end Lists

section Texts

variable {old new stamp : Str}

/-- The lines of the merged text are those of the merge, and a blank one if there are none. -/
theorem lines_merged (hstamp : '\n' ∉ stamp) (hm : Mergeable (lines old) (lines new)) :
    ∃ extra : List Str, (∀ l ∈ extra, l = []) ∧
      lines (finish (outputLines (merged (lines old) (lines new)) stamp)) =
        outputLines (merged (lines old) (lines new)) stamp ++ extra ∧
      finish (outputLines (merged (lines old) (lines new)) stamp ++ extra) =
        finish (outputLines (merged (lines old) (lines new)) stamp) := by
  have hfree := outputLines_free hstamp (lines_free old) (lines_free new)
  have hend := output_end hm stamp
  have hlast := output_last hm stamp
  generalize outputLines (merged (lines old) (lines new)) stamp = ls at hfree hend hlast ⊢
  by_cases hls : ls = []
  · subst hls
    exact ⟨[[]], by simp, by decide, by decide⟩
  · refine ⟨[], by simp, ?_, by rw [List.append_nil]⟩
    rw [lines_finish hfree hls hend, List.append_nil]
    refine (List.map_congr_left fun l hl => ?_).trans (List.map_id ls)
    rw [stripReturn, if_neg (hlast l hl)]
    rfl

theorem mergesWell_of_mergeable (hstamp : '\n' ∉ stamp) (hm : Mergeable (lines old) (lines new)) :
    MergesWell old new stamp := by
  obtain ⟨extra, hextra, hlines, hfinish⟩ := lines_merged hstamp hm
  refine ⟨_, mergeHashLists_eq.mpr ⟨hm.once, rfl⟩, ?_, fun stamp' => ?_⟩
  · rw [hlines]
    exact union_merged hm.once hextra stamp
  · have hunion := union_merged hm.once hextra stamp
    rw [mergeHashLists_eq, hlines]
    obtain ⟨hno, hagain⟩ := merge_again (lines new)
      (fun h hany => by rw [hunion.hashes, hany, Bool.or_true])
      (fun h l first hl ht hc hfirst => find_output_annotated hm.once hl ht hc extra hfirst) stamp'
    exact ⟨hno, by rw [hagain, hfinish]⟩

theorem lines_newline (t : Str) : lines (t ++ ['\n']) = (t.splitOn '\n').map stripReturn := by
  rw [lines, List.splitOn_append_cons_self, List.splitOn_nil]
  simp

theorem line_of_finish {ls : List Str} (hfree : ∀ l ∈ ls, '\n' ∉ l) {i : Nat} {line : Str}
    (hi : ls[i]? = some line) (hne : line ≠ []) :
    (lines (finish ls))[i]? = some (stripReturn line) := by
  obtain ⟨t, ht⟩ := List.getLast?_eq_some_iff.mp (finish_ends ls)
  have hpiece := piece_of_finish hfree hi
  rw [ht, List.splitOn_append_cons_self, List.splitOn_nil] at hpiece
  rw [ht, lines_newline, List.getElem?_map]
  by_cases hlt : i < (t.splitOn '\n').length
  · rw [List.getElem?_append_left hlt] at hpiece
    rw [hpiece, Option.map_some]
  · rw [List.getElem?_append_right (Nat.le_of_not_lt hlt)] at hpiece
    have hmem := List.mem_of_getElem? hpiece
    exact absurd (List.mem_singleton.mp hmem) hne

theorem output_getElem? (new : List Str) {ls : List Str} {i : Nat} {line : Str}
    (hi : ls[i]? = some line) (stamp : Str) :
    (outputLines (merged ls new) stamp)[i]? = some (upgrade ls new i line) := by
  have hout : (merged ls new).out[i]? = some (upgrade ls new i line) := by
    rw [out_getElem?, hi, Option.map_some]
  rw [outputLines_eq, List.getElem?_append_left (List.getElem?_eq_some_iff.mp hout).1, hout]

/-- A line that ends with a return does not survive the next merge. -/
theorem returns_of_mergesWell (hstamp : '\n' ∉ stamp) (h : MergesWell old new stamp) (i : Nat)
    (line : Str) (hi : (lines old)[i]? = some line) (hr : line.getLast? = some '\r') :
    Replaced (lines old) (lines new) i line := by
  obtain ⟨s, hs, -, hagain⟩ := h
  obtain ⟨hno, rfl⟩ := mergeHashLists_eq.mp hs
  obtain heq | ⟨hreplaced, -⟩ := upgrade_cases (lines old) (lines new) i line
  · obtain ⟨-, hsame⟩ := mergeHashLists_eq.mp (hagain stamp)
    have hne : line ≠ [] := by
      rintro rfl
      cases hr
    have hfree := outputLines_free hstamp (lines_free old) (lines_free new)
    have hpiece := output_getElem? (lines new) hi stamp
    rw [heq] at hpiece
    have hpiece' := piece_of_finish
      (outputLines_free hstamp (lines_free _) (lines_free new))
      (output_getElem? (lines new) (line_of_finish hfree hpiece hne) stamp)
    rw [hsame, piece_of_finish hfree hpiece, Option.some.injEq] at hpiece'
    obtain hkept | ⟨-, h, l, -, -, -, htrim⟩ := upgrade_cases
      (lines (finish (outputLines (merged (lines old) (lines new)) stamp))) (lines new) i
      (stripReturn line)
    · have hlen := congrArg List.length (hpiece'.trans hkept)
      rw [stripReturn, if_pos hr, List.length_dropLast] at hlen
      exact absurd (List.length_eq_zero_iff.mp (by omega)) hne
    · rw [hpiece', htrim] at hr
      exact absurd hr (trimEnd_last l)
  · exact hreplaced

/-- A blank line at the end is lost where nothing is appended. -/
theorem last_of_mergesWell (hstamp : '\n' ∉ stamp) (h : MergesWell old new stamp) :
    (lines new).any (fresh (lines old)) = true ∨ (lines old).length ≤ 1 ∨
      (lines old).getLast? ≠ some [] := by
  obtain ⟨s, hs, hunion, -⟩ := h
  obtain ⟨-, rfl⟩ := mergeHashLists_eq.mp hs
  by_contra hnot
  rw [not_or, not_or, not_not, Bool.not_eq_true] at hnot
  obtain ⟨hfresh, hlen, hlast⟩ := hnot
  have hnone : (merged (lines old) (lines new)).appended = [] := by
    rw [← Bool.not_eq_true, any_iff_filter, not_not] at hfresh
    exact List.map_eq_nil_iff.mpr hfresh
  have hlength : (merged (lines old) (lines new)).out.length = (lines old).length :=
    List.length_mapIdx
  have hout : outputLines (merged (lines old) (lines new)) stamp =
      (merged (lines old) (lines new)).out := by rw [outputLines, if_pos hnone]
  have hend : (merged (lines old) (lines new)).out.getLast? = some [] := by
    rw [List.getLast?_eq_getElem?] at hlast
    rw [List.getLast?_eq_getElem?, hlength, out_getElem?, hlast, Option.map_some]
    obtain heq | ⟨-, h, -, ht, -⟩ := upgrade_cases (lines old) (lines new)
      ((lines old).length - 1) []
    · rw [heq]
    · cases ht
  obtain ⟨before, hbefore⟩ := List.getLast?_eq_some_iff.mp hend
  have hne : before ≠ [] := by
    rintro rfl
    rw [hbefore] at hlength
    simp only [List.nil_append, List.length_singleton] at hlength
    omega
  have hfree := fun l hl => outputLines_free hstamp (lines_free old) (lines_free new) l
    (hout ▸ hbefore ▸ List.mem_append_left _ hl)
  obtain ⟨kept, added, hlines, hkept, -⟩ := hunion.kept
  have hfinish : finish (before ++ [[]]) = ['\n'].intercalate before ++ ['\n'] := by
    rw [finish, intercalate_concat hne []]
    exact if_pos List.getLast?_concat
  rw [hout, hbefore, hfinish, lines_newline, List.splitOn_intercalate '\n' hfree hne] at hlines
  have hcount := congrArg List.length hlines
  rw [List.length_map, List.length_append, ← hkept.length_eq, ← hlength, hbefore,
    List.length_append, List.length_singleton] at hcount
  omega

end Texts

/-- The merge does what it promises if and only if no new hash comes twice, no line that stays
ends with a return, and no blank line at the end is lost. -/
theorem mergesWell_iff {old new stamp : Str} (hstamp : '\n' ∉ stamp) :
    MergesWell old new stamp ↔ Mergeable (lines old) (lines new) := by
  constructor
  · intro h
    obtain ⟨s, hs, -⟩ := id h
    exact ⟨(mergeHashLists_eq.mp hs).1, returns_of_mergesWell hstamp h,
      last_of_mergesWell hstamp h⟩
  · exact mergesWell_of_mergeable hstamp

/-- The hash of an empty file. -/
def bare : Str := "31d6cfe0d16ae931b73c59d7e0c089c0".toList

theorem bare_line_annotated :
    MergesWell (bare ++ ['\n']) (bare ++ " ; empty\n".toList) "2026-01-02 03:04 UTC".toList := by
  have hold : lines (bare ++ ['\n']) = [bare] := by decide
  have hnew : lines (bare ++ " ; empty\n".toList) = [bare ++ " ; empty".toList] := by decide
  refine (mergesWell_iff (by decide)).mpr ⟨fun h _ => ?_, fun i line hi hr => ?_, ?_⟩
  · rw [hnew]
    exact List.countP_le_length
  · rw [hold] at hi
    rw [List.mem_singleton.mp (List.mem_of_getElem? hi)] at hr
    exact absurd hr (by decide)
  · exact Or.inr (Or.inl (by rw [hold]; exact Nat.le_refl 1))

theorem new_hash_twice_panics : ¬∀ old new stamp : Str, '\n' ∉ stamp →
    MergesWell old new stamp := by
  intro h
  obtain ⟨s, hs, -⟩ := h [] (bare ++ '\n' :: bare) [] List.not_mem_nil
  obtain ⟨hash, hhash⟩ : ∃ hash, hashOfLine bare = .hash hash := ⟨_, rfl⟩
  have hnew : lines (bare ++ '\n' :: bare) = [bare, bare] := by decide
  have hone := (mergeHashLists_eq.mp hs).1 hash rfl
  rw [hnew, List.countP_cons_of_pos (takes_iff.mpr hhash),
    List.countP_cons_of_pos (takes_iff.mpr hhash)] at hone
  omega

end Ed2kServer.Updates.MergeSound
