import Ed2kServer.Keyword.PostingCodec

namespace Ed2kServer.Keyword.PostingSpec

open Ed2kServer.Keyword.PostingCodec

theorem readVarintFrom_append {result : UInt32} {shift : Nat} {data : List UInt8} {v : UInt32}
    {rest : List UInt8} (h : readVarintFrom result shift data = some (v, rest))
    (s : List UInt8) : readVarintFrom result shift (data ++ s) = some (v, rest ++ s) := by
  induction data generalizing result shift with
  | nil => cases h
  | cons byte data ih =>
    rw [readVarintFrom] at h
    rw [List.cons_append, readVarintFrom]
    by_cases hover : 32 ≤ shift
    · rw [if_pos hover] at h
      cases h
    · rw [if_neg hover] at h ⊢
      by_cases hfifth : shift = 28 ∧ 0x0F < byte &&& 0x7F
      · rw [if_pos hfifth] at h
        cases h
      · rw [if_neg hfifth] at h ⊢
        by_cases hlast : byte &&& 0x80 = 0
        · simp only [if_pos hlast] at h ⊢
          cases h
          rfl
        · simp only [if_neg hlast] at h ⊢
          exact ih h

theorem readVarint_append {data : List UInt8} {v : UInt32} {rest : List UInt8}
    (h : readVarint data = some (v, rest)) (s : List UInt8) :
    readVarint (data ++ s) = some (v, rest ++ s) :=
  readVarintFrom_append h s

theorem decodeFrom_append {n : Nat} {acc : FileId} {data rest : List UInt8} {ids : List FileId}
    (h : decodeFrom n acc data = some (ids, rest)) (s : List UInt8) :
    decodeFrom n acc (data ++ s) = some (ids, rest ++ s) := by
  induction n generalizing acc data ids with
  | zero =>
    cases h
    rfl
  | succ n ih =>
    rw [decodeFrom] at h
    obtain ⟨⟨gap, tail⟩, hgap, h⟩ := Option.bind_eq_some_iff.mp h
    obtain ⟨⟨more, last⟩, hmore, h⟩ := Option.bind_eq_some_iff.mp h
    cases h
    simp [decodeFrom, readVarint_append hgap, ih hmore]

/-- A decoded blob is used up: with anything after it, it is no blob. -/
theorem decode_append {data : List UInt8} {ids : List FileId} (h : decode data = some ids)
    {s : List UInt8} (hs : s ≠ []) : decode (data ++ s) = none := by
  rw [decode] at h
  obtain ⟨⟨count, tail⟩, hcount, h⟩ := Option.bind_eq_some_iff.mp h
  obtain ⟨⟨more, last⟩, hmore, h⟩ := Option.bind_eq_some_iff.mp h
  have hlast : last = [] := by
    by_contra hne
    simp only [if_neg hne] at h
    cases h
  subst hlast
  simp [decode, readVarint_append hcount, decodeFrom_append hmore, hs]

theorem decode_prefix {p s : List UInt8} {ids : List FileId} (h : decode (p ++ s) = some ids)
    (hs : s ≠ []) : decode p = none := by
  by_contra hne
  obtain ⟨ids', hp⟩ := Option.ne_none_iff_exists'.mp hne
  rw [decode_append hp hs] at h
  cases h

/-- `peek` and `bump` until the head is gone. -/
def drain (c : PostingCursor) : List FileId :=
  match _h : c.cur with
  | some head => head :: drain c.bump
  | none => []
termination_by c.len
decreasing_by exact PostingCursor.len_bump_lt _h

theorem drain_of_reads {c : PostingCursor} {ids : List FileId} (h : c.Reads ids) :
    drain c = ids := by
  induction ids generalizing c with
  | nil =>
    rw [drain]
    split
    · rename_i head hc
      rw [h.cur_eq] at hc
      cases hc
    · rfl
  | cons id ids ih =>
    rw [drain]
    split
    · rename_i head hc
      rw [h.cur_eq] at hc
      cases hc
      rw [ih h.bump]
    · rename_i hc
      rw [h.cur_eq] at hc
      cases hc

/-- The answers of successive `contains` calls. -/
def answers : PostingCursor → List FileId → List Bool
  | _, [] => []
  | c, t :: ts => (c.contains t).1 :: answers (c.contains t).2 ts

/-- One call skips exactly the postings below its target. -/
theorem contains_spec {c : PostingCursor} {ids : List FileId} (h : c.Reads ids)
    (target : FileId) :
    (c.contains target).1 = (ids.dropWhile (· < target)).head?.any (· == target) ∧
      (c.contains target).2.Reads (ids.dropWhile (· < target)) := by
  induction ids generalizing c with
  | nil =>
    rw [PostingCursor.contains]
    split
    · rename_i head hc
      rw [h.cur_eq] at hc
      cases hc
    · exact ⟨rfl, h⟩
  | cons id ids ih =>
    rw [PostingCursor.contains]
    split
    · rename_i head hc
      rw [h.cur_eq] at hc
      cases hc
      by_cases hlt : id < target
      · rw [if_pos hlt, List.dropWhile_cons_of_pos (by simpa using hlt)]
        exact ih h.bump
      · rw [if_neg hlt, List.dropWhile_cons_of_neg (by simpa using hlt)]
        exact ⟨rfl, h⟩
    · rename_i hc
      rw [h.cur_eq] at hc
      cases hc

theorem head_dropWhile_iff {ids : List FileId} (hs : ids.SortedLT) (target : FileId) :
    (ids.dropWhile (· < target)).head?.any (· == target) = decide (target ∈ ids) := by
  induction ids with
  | nil => rfl
  | cons id ids ih =>
    have hp := List.pairwise_cons.mp hs.pairwise
    by_cases hlt : id < target
    · rw [List.dropWhile_cons_of_pos (by simpa using hlt), ih hp.2.sortedLT]
      simp [List.mem_cons, hlt.ne']
    · rw [List.dropWhile_cons_of_neg (by simpa using hlt)]
      have hnot : target ∉ ids := fun hm => hlt (hp.1 target hm)
      simp only [List.head?_cons, Option.any_some, List.mem_cons, hnot, or_false]
      rw [Bool.eq_iff_iff, beq_iff_eq, decide_eq_true_eq, eq_comm]

/-- What a target skipped lies below every later one. -/
theorem mem_dropWhile_iff (ids : List FileId) {t u : FileId} (htu : t ≤ u) :
    u ∈ ids.dropWhile (· < t) ↔ u ∈ ids := by
  constructor
  · exact fun h => (List.dropWhile_suffix _).subset h
  · intro h
    induction ids with
    | nil => cases h
    | cons id ids ih =>
      by_cases hlt : id < t
      · rw [List.dropWhile_cons_of_pos (by simpa using hlt)]
        have hne : u ≠ id := fun he => absurd htu (not_le.mpr (he ▸ hlt))
        exact ih ((List.mem_cons.mp h).resolve_left hne)
      · rw [List.dropWhile_cons_of_neg (by simpa using hlt)]
        exact h

theorem answers_eq {c : PostingCursor} {ids targets : List FileId} (h : c.Reads ids)
    (hs : ids.SortedLT) (ht : targets.SortedLE) :
    answers c targets = targets.map (fun t => decide (t ∈ ids)) := by
  induction targets generalizing c ids with
  | nil => rfl
  | cons t ts ih =>
    obtain ⟨hans, hreads⟩ := contains_spec h t
    have hp := List.pairwise_cons.mp ht.pairwise
    have hsuffix := List.dropWhile_suffix (l := ids) (fun x => decide (x < t))
    have hs' : (ids.dropWhile (· < t)).SortedLT := (hs.pairwise.sublist hsuffix.sublist).sortedLT
    rw [answers, hans, head_dropWhile_iff hs, ih hreads hs' hp.2.sortedLE, List.map_cons]
    congr 1
    apply List.map_congr_left
    intro u hu
    simp only [mem_dropWhile_iff ids (hp.1 u hu)]

/-- What a blob holds, read whole, cut, extended, walked and probed. -/
theorem posting_codec {ids : List FileId} (h : ids.length < 2 ^ 32) :
    decode (encode ids) = some ids ∧ decodedLen (encode ids) = some ids.length ∧
    (∀ p s, encode ids = p ++ s → s ≠ [] → decode p = none) ∧
    (∀ s, s ≠ [] → decode (encode ids ++ s) = none) ∧
    ∃ c, PostingCursor.new (encode ids) = some c ∧ drain c = ids ∧
      (ids.SortedLT → ∀ targets : List FileId, targets.SortedLE →
        answers c targets = targets.map (fun t => decide (t ∈ ids))) := by
  have hdec := decode_encode h
  obtain ⟨c, hnew, hreads⟩ := PostingCursor.new_encode h
  refine ⟨hdec, decodedLen_encode h, fun p s he hs => ?_, fun s hs => decode_append hdec hs,
    c, hnew, drain_of_reads hreads, fun hsorted targets ht => answers_eq hreads hsorted ht⟩
  rw [he] at hdec
  exact decode_prefix hdec hs

theorem posting_codec_unsorted :
    decode (encode [7, 3, 3]) = some [7, 3, 3] :=
  (posting_codec (by decide : ([7, 3, 3] : List FileId).length < 2 ^ 32)).1

end Ed2kServer.Keyword.PostingSpec
