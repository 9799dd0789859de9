import Ed2kServer.Lib.Ascending
import Ed2kServer.Keyword.PostingCodec

namespace Ed2kServer.Keyword.MergeTiers

open Ed2kServer.Lib Ed2kServer.Keyword.PostingCodec

/-- Whether `id` is on the deletion list, and the list from there on: it is walked only forward. -/
def deleted (pend : List FileId) (id : FileId) : Bool × List FileId :=
  ((pend.dropWhile (· < id)).head? == some id, pend.dropWhile (· < id))

/-- The ids of `cold` that are not deleted merged with `hot`. -/
def mergeTiers : List FileId → List FileId → List FileId → List FileId
  | [], hot, _ => hot
  | c :: cold, [], pend =>
    if (deleted pend c).1 then mergeTiers cold [] (deleted pend c).2
    else c :: mergeTiers cold [] (deleted pend c).2
  | c :: cold, h :: hot, pend =>
    if c < h then
      if (deleted pend c).1 then mergeTiers cold (h :: hot) (deleted pend c).2
      else c :: mergeTiers cold (h :: hot) (deleted pend c).2
    else if h < c then h :: mergeTiers (c :: cold) hot pend
    else c :: mergeTiers cold hot pend
termination_by cold hot => cold.length + hot.length

theorem len_bump_lt {cur : Option PostingCursor} {head : FileId}
    (h : cur.bind PostingCursor.cur = some head) :
    (cur.map PostingCursor.bump).elim 0 PostingCursor.len < cur.elim 0 PostingCursor.len := by
  obtain ⟨c, rfl, hc⟩ := Option.bind_eq_some_iff.mp h
  exact PostingCursor.len_bump_lt hc

/-- The same merge read off a cursor, with no more than `cap` ids. -/
def mergeCursor (pend : List FileId) (cap : Nat) (cur : Option PostingCursor)
    (hot : List FileId) : List FileId :=
  if cap = 0 then [] else
  match _h : cur.bind PostingCursor.cur with
  | none =>
    match hot with
    | [] => []
    | b :: hot => b :: mergeCursor pend (cap - 1) cur hot
  | some a =>
    match hot with
    | [] =>
      if Ascending.contains pend a then mergeCursor pend cap (cur.map PostingCursor.bump) []
      else a :: mergeCursor pend (cap - 1) (cur.map PostingCursor.bump) []
    | b :: hot =>
      if b < a then b :: mergeCursor pend (cap - 1) cur hot
      else if b = a then a :: mergeCursor pend (cap - 1) (cur.map PostingCursor.bump) hot
      else if Ascending.contains pend a then
        mergeCursor pend cap (cur.map PostingCursor.bump) (b :: hot)
      else a :: mergeCursor pend (cap - 1) (cur.map PostingCursor.bump) (b :: hot)
termination_by (cur.elim 0 PostingCursor.len) + hot.length
decreasing_by
  all_goals
    try have hlt := len_bump_lt _h
    simp only [List.length_cons, List.length_nil]
    omega

/-- What a cursor still has to give, nothing when there is none. -/
def CursorReads : Option PostingCursor → List FileId → Prop
  | none, ids => ids = []
  | some c, ids => c.Reads ids

theorem CursorReads.head {cur : Option PostingCursor} {ids : List FileId}
    (h : CursorReads cur ids) : cur.bind PostingCursor.cur = ids.head? := by
  cases cur with
  | none =>
    obtain rfl : ids = [] := h
    rfl
  | some c => exact PostingCursor.Reads.cur_eq h

theorem CursorReads.bump {cur : Option PostingCursor} {a : FileId} {ids : List FileId}
    (h : CursorReads cur (a :: ids)) : CursorReads (cur.map PostingCursor.bump) ids := by
  cases cur with
  | none => exact absurd h (List.cons_ne_nil a ids)
  | some c => exact PostingCursor.Reads.bump h

section Deleted

variable {pend : List FileId} {id : FileId}

theorem deleted_iff (hp : pend.SortedLT) : (deleted pend id).1 = true ↔ id ∈ pend := by
  rw [← Ascending.getElem?_rank_eq_some hp, Ascending.getElem?_rank]
  simp [deleted]

theorem deleted_rest_sorted (hp : pend.SortedLT) : (deleted pend id).2.SortedLT :=
  (hp.pairwise.sublist (List.dropWhile_sublist _)).sortedLT

theorem mem_deleted_rest {x : FileId} (hx : id ≤ x) :
    x ∈ (deleted pend id).2 ↔ x ∈ pend := by
  constructor
  · exact fun h => (List.dropWhile_sublist _).subset h
  · intro h
    rw [Ascending.split_rank pend id, List.mem_append] at h
    simp only [deleted]
    exact h.resolve_left (fun hm => absurd (Ascending.lt_of_mem_takeWhile hm) (not_lt.mpr hx))

end Deleted

theorem mem_tail_deleted_rest {cold : List FileId} {c : FileId} (hc : (c :: cold).SortedLT)
    (pend : List FileId) (x : FileId) :
    x ∈ cold ∧ x ∉ (deleted pend c).2 ↔ x ∈ cold ∧ x ∉ pend := by
  have hlt := (List.pairwise_cons.mp hc.pairwise).1
  exact and_congr_right (fun hx => not_congr (mem_deleted_rest (hlt x hx).le))

theorem tail_sorted {c : FileId} {cold : List FileId} (hc : (c :: cold).SortedLT) :
    cold.SortedLT := (List.pairwise_cons.mp hc.pairwise).2.sortedLT

theorem mem_mergeTiers {cold hot pend : List FileId} (hc : cold.SortedLT) (hp : pend.SortedLT)
    (x : FileId) : x ∈ mergeTiers cold hot pend ↔ x ∈ hot ∨ (x ∈ cold ∧ x ∉ pend) := by
  fun_induction mergeTiers cold hot pend with
  | case1 hot pend => simp
  | case2 c cold pend hd ih =>
    have hmem := (deleted_iff hp).mp hd
    rw [ih (tail_sorted hc) (deleted_rest_sorted hp), mem_tail_deleted_rest hc]
    grind
  | case3 c cold pend hd ih =>
    have hmem := mt (deleted_iff hp).mpr hd
    rw [List.mem_cons, ih (tail_sorted hc) (deleted_rest_sorted hp),
      mem_tail_deleted_rest hc]
    grind
  | case4 c cold h hot pend hlt hd ih =>
    have hmem := (deleted_iff hp).mp hd
    rw [ih (tail_sorted hc) (deleted_rest_sorted hp), mem_tail_deleted_rest hc]
    grind
  | case5 c cold h hot pend hlt hd ih =>
    have hmem := mt (deleted_iff hp).mpr hd
    rw [List.mem_cons, ih (tail_sorted hc) (deleted_rest_sorted hp),
      mem_tail_deleted_rest hc]
    grind
  | case6 c cold h hot pend hge hlt ih =>
    rw [List.mem_cons, ih hc hp]
    grind
  | case7 c cold h hot pend hge hle ih =>
    obtain rfl : c = h := le_antisymm (not_lt.mp hle) (not_lt.mp hge)
    rw [List.mem_cons, ih (tail_sorted hc) hp]
    grind

theorem mergeTiers_sorted {cold hot pend : List FileId} (hc : cold.SortedLT)
    (hh : hot.SortedLT) (hp : pend.SortedLT) : (mergeTiers cold hot pend).SortedLT := by
  fun_induction mergeTiers cold hot pend with
  | case1 hot pend => exact hh
  | case2 c cold pend hd ih => exact ih (tail_sorted hc) hh (deleted_rest_sorted hp)
  | case3 c cold pend hd ih =>
    have hrest := ih (tail_sorted hc) hh (deleted_rest_sorted hp)
    refine (List.pairwise_cons.mpr ⟨fun x hx => ?_, hrest.pairwise⟩).sortedLT
    rw [mem_mergeTiers (tail_sorted hc) (deleted_rest_sorted hp)] at hx
    exact (List.pairwise_cons.mp hc.pairwise).1 x (by simpa using hx.elim (by simp) And.left)
  | case4 c cold h hot pend hlt hd ih => exact ih (tail_sorted hc) hh (deleted_rest_sorted hp)
  | case5 c cold h hot pend hlt hd ih =>
    have hrest := ih (tail_sorted hc) hh (deleted_rest_sorted hp)
    refine (List.pairwise_cons.mpr ⟨fun x hx => ?_, hrest.pairwise⟩).sortedLT
    rw [mem_mergeTiers (tail_sorted hc) (deleted_rest_sorted hp)] at hx
    have hcc := (List.pairwise_cons.mp hc.pairwise).1
    have hhh := (List.pairwise_cons.mp hh.pairwise).1
    grind
  | case6 c cold h hot pend hge hlt ih =>
    have hrest := ih hc (tail_sorted hh) hp
    refine (List.pairwise_cons.mpr ⟨fun x hx => ?_, hrest.pairwise⟩).sortedLT
    rw [mem_mergeTiers hc hp] at hx
    have hcc := (List.pairwise_cons.mp hc.pairwise).1
    have hhh := (List.pairwise_cons.mp hh.pairwise).1
    grind
  | case7 c cold h hot pend hge hle ih =>
    obtain rfl : c = h := le_antisymm (not_lt.mp hle) (not_lt.mp hge)
    have hrest := ih (tail_sorted hc) (tail_sorted hh) hp
    refine (List.pairwise_cons.mpr ⟨fun x hx => ?_, hrest.pairwise⟩).sortedLT
    rw [mem_mergeTiers (tail_sorted hc) hp] at hx
    have hcc := (List.pairwise_cons.mp hc.pairwise).1
    have hhh := (List.pairwise_cons.mp hh.pairwise).1
    grind

@[simp] theorem mergeCursor_zero (pend : List FileId) (cur : Option PostingCursor)
    (hot : List FileId) : mergeCursor pend 0 cur hot = [] := by
  unfold mergeCursor
  rfl

theorem mergeCursor_of_none (pend : List FileId) (cap : Nat) {cur : Option PostingCursor}
    (h : cur.bind PostingCursor.cur = none) (hot : List FileId) :
    mergeCursor pend cap cur hot = hot.take cap := by
  induction hot generalizing cap with
  | nil =>
    unfold mergeCursor
    split <;> [simp; skip]
    split
    · simp
    · rename_i a ha
      rw [h] at ha
      cases ha
  | cons b hot ih =>
    unfold mergeCursor
    split
    · rename_i hz
      simp [hz]
    · split
      · rename_i hz hn
        obtain ⟨n, rfl⟩ := Nat.exists_eq_succ_of_ne_zero hz
        simp [ih]
      · rename_i a ha
        rw [h] at ha
        cases ha

theorem mergeCursor_of_head (pend : List FileId) (cap : Nat) {cur : Option PostingCursor}
    {a : FileId} (h : cur.bind PostingCursor.cur = some a) (hot : List FileId) :
    mergeCursor pend (cap + 1) cur hot =
      match hot with
      | [] =>
        if Ascending.contains pend a then
          mergeCursor pend (cap + 1) (cur.map PostingCursor.bump) []
        else a :: mergeCursor pend cap (cur.map PostingCursor.bump) []
      | b :: hot =>
        if b < a then b :: mergeCursor pend cap cur hot
        else if b = a then a :: mergeCursor pend cap (cur.map PostingCursor.bump) hot
        else if Ascending.contains pend a then
          mergeCursor pend (cap + 1) (cur.map PostingCursor.bump) (b :: hot)
        else a :: mergeCursor pend cap (cur.map PostingCursor.bump) (b :: hot) := by
  conv_lhs => unfold mergeCursor
  rw [if_neg (Nat.add_one_ne_zero cap)]
  split
  · rename_i hn
    rw [h] at hn
    cases hn
  · rename_i a' ha
    rw [h] at ha
    cases ha
    rfl

/-- A lower cap cuts the walk short and changes nothing before. -/
theorem mergeCursor_take {pend hot : List FileId} {cap cap' : Nat} {cur : Option PostingCursor}
    (h : cap ≤ cap') : mergeCursor pend cap cur hot = (mergeCursor pend cap' cur hot).take cap := by
  induction hn : cur.elim 0 PostingCursor.len + hot.length using Nat.strongRecOn
    generalizing cap cap' cur hot with
  | ind n ih =>
    subst hn
    cases cap with
    | zero => simp
    | succ cap =>
      obtain ⟨cap', rfl⟩ : ∃ k, cap' = k + 1 := ⟨cap' - 1, by omega⟩
      cases hc : cur.bind PostingCursor.cur with
      | none =>
        rw [mergeCursor_of_none pend _ hc, mergeCursor_of_none pend _ hc, List.take_take]
        congr 1
        omega
      | some a =>
        have hlt := len_bump_lt hc
        rw [mergeCursor_of_head pend _ hc, mergeCursor_of_head pend _ hc]
        cases hot with
        | nil =>
          simp only
          split
          · exact ih _ (by omega) h rfl
          · rw [List.take_succ_cons, ih _ (by omega) (Nat.le_of_succ_le_succ h) rfl]
        | cons b hot =>
          simp only [List.length_cons] at ih ⊢
          split
          · rw [List.take_succ_cons, ih _ (by omega) (Nat.le_of_succ_le_succ h) rfl]
          · split
            · rw [List.take_succ_cons, ih _ (by omega) (Nat.le_of_succ_le_succ h) rfl]
            · split
              · exact ih _ (by rw [List.length_cons]; omega) h rfl
              · rw [List.take_succ_cons,
                  ih _ (by rw [List.length_cons]; omega) (Nat.le_of_succ_le_succ h) rfl]

theorem agree_tail {c : FileId} {cold pend rest : List FileId} (hc : (c :: cold).SortedLT)
    (hagree : ∀ x ∈ c :: cold, x ∈ pend ↔ x ∈ rest) :
    ∀ x ∈ cold, x ∈ pend ↔ x ∈ (deleted rest c).2 := by
  intro x hx
  have hlt := (List.pairwise_cons.mp hc.pairwise).1 x hx
  rw [hagree x (List.mem_cons_of_mem c hx), mem_deleted_rest hlt.le]

/-- The capped walk returns the first ids of the merge. -/
theorem mergeCursor_eq_take {pend cold hot rest : List FileId} {cap : Nat}
    {cur : Option PostingCursor} (hcur : CursorReads cur cold) (hc : cold.SortedLT)
    (hp : pend.SortedLT) (hr : rest.SortedLT) (hagree : ∀ x ∈ cold, x ∈ pend ↔ x ∈ rest) :
    mergeCursor pend cap cur hot = (mergeTiers cold hot rest).take cap := by
  fun_induction mergeTiers cold hot rest generalizing cap cur with
  | case1 hot rest => exact mergeCursor_of_none pend cap hcur.head hot
  | case2 c cold rest hd ih =>
    have hmem := (hagree c (by simp)).mpr ((deleted_iff hr).mp hd)
    cases cap with
    | zero => simp
    | succ cap =>
      rw [mergeCursor_of_head pend cap hcur.head]
      simp only [(Ascending.contains_iff hp c).mpr hmem, if_true]
      exact ih hcur.bump (tail_sorted hc) (deleted_rest_sorted hr) (agree_tail hc hagree)
  | case3 c cold rest hd ih =>
    have hmem : c ∉ pend := fun h => hd ((deleted_iff hr).mpr ((hagree c (by simp)).mp h))
    cases cap with
    | zero => simp
    | succ cap =>
      rw [mergeCursor_of_head pend cap hcur.head]
      simp only [mt (Ascending.contains_iff hp c).mp hmem, Bool.false_eq_true, if_false,
        List.take_succ_cons]
      rw [ih hcur.bump (tail_sorted hc) (deleted_rest_sorted hr) (agree_tail hc hagree)]
  | case4 c cold h hot rest hlt hd ih =>
    have hmem := (hagree c (by simp)).mpr ((deleted_iff hr).mp hd)
    cases cap with
    | zero => simp
    | succ cap =>
      rw [mergeCursor_of_head pend cap hcur.head]
      simp only [if_neg hlt.not_gt, if_neg hlt.ne', (Ascending.contains_iff hp c).mpr hmem,
        if_true]
      exact ih hcur.bump (tail_sorted hc) (deleted_rest_sorted hr) (agree_tail hc hagree)
  | case5 c cold h hot rest hlt hd ih =>
    have hmem : c ∉ pend := fun h => hd ((deleted_iff hr).mpr ((hagree c (by simp)).mp h))
    cases cap with
    | zero => simp
    | succ cap =>
      rw [mergeCursor_of_head pend cap hcur.head]
      simp only [if_neg hlt.not_gt, if_neg hlt.ne', mt (Ascending.contains_iff hp c).mp hmem,
        Bool.false_eq_true, if_false, List.take_succ_cons]
      rw [ih hcur.bump (tail_sorted hc) (deleted_rest_sorted hr) (agree_tail hc hagree)]
  | case6 c cold h hot rest hge hlt ih =>
    cases cap with
    | zero => simp
    | succ cap =>
      rw [mergeCursor_of_head pend cap hcur.head]
      simp only [if_pos hlt, List.take_succ_cons]
      rw [ih hcur hc hr hagree]
  | case7 c cold h hot rest hge hle ih =>
    obtain rfl : c = h := le_antisymm (not_lt.mp hle) (not_lt.mp hge)
    cases cap with
    | zero => simp
    | succ cap =>
      rw [mergeCursor_of_head pend cap hcur.head]
      simp only [lt_irrefl, if_false, if_true, List.take_succ_cons]
      rw [ih hcur.bump (tail_sorted hc) hr (fun x hx => hagree x (List.mem_cons_of_mem c hx))]

end Ed2kServer.Keyword.MergeTiers
