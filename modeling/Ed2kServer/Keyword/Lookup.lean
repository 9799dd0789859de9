import Ed2kServer.Keyword.Index

namespace Ed2kServer.Keyword.Lookup

open Ed2kServer.Lib Ed2kServer.Keyword.Cold Ed2kServer.Keyword.PostingCodec
open Ed2kServer.Keyword.MergeTiers Ed2kServer.Keyword.Tokenizer Ed2kServer.Keyword.Index

/-- The tiers are ascending and the cold one holds the posting lists `p`. -/
structure Sound (ix : KeywordIndex) (p : Tier) : Prop where
  cold : Holds ix.cold p
  hot_sorted : ∀ th, ((ix.hot th).getD []).SortedLT
  pending_sorted : ∀ th, ((ix.pendingRemovals th).getD []).SortedLT

/-- A keyword's posting list over the three tiers. -/
def posting (ix : KeywordIndex) (p : Tier) (th : TokenHash) : List FileId :=
  mergeTiers ((p th).getD []) ((ix.hot th).getD []) ((ix.pendingRemovals th).getD [])

variable {ix : KeywordIndex} {p : Tier}

theorem Sound.cold_sorted (h : Sound ix p) (th : TokenHash) : ((p th).getD []).SortedLT := by
  cases hp : p th with
  | none => exact List.Pairwise.nil.sortedLT
  | some ids => exact h.cold.sorted th ids hp

theorem Sound.posting_sorted (h : Sound ix p) (th : TokenHash) : (posting ix p th).SortedLT :=
  mergeTiers_sorted (h.cold_sorted th) (h.hot_sorted th) (h.pending_sorted th)

theorem Sound.mem_posting (h : Sound ix p) (th : TokenHash) (x : FileId) :
    x ∈ posting ix p th ↔ x ∈ (ix.hot th).getD [] ∨
      (x ∈ (p th).getD [] ∧ x ∉ (ix.pendingRemovals th).getD []) :=
  mem_mergeTiers (h.cold_sorted th) (h.pending_sorted th) x

theorem Sound.cursor (h : Sound ix p) (th : TokenHash) :
    CursorReads ((ix.cold.get th).bind PostingCursor.new) ((p th).getD []) := by
  rw [h.cold.get]
  cases hp : p th with
  | none => rfl
  | some ids =>
    obtain ⟨c, hc, hr⟩ := PostingCursor.new_encode (h.cold.length_lt hp)
    simp only [Option.map_some, Option.bind_some, hc]
    exact hr

theorem Sound.mergeTiersLocked (h : Sound ix p) (th : TokenHash) (cap : Nat) :
    (ix.mergeTiersLocked th cap).getD [] = (posting ix p th).take cap := by
  rw [KeywordIndex.mergeTiersLocked]
  split
  · rename_i hnone
    have hp : p th = none := by
      have hg := hnone.1
      rwa [h.cold.get, Option.map_eq_none_iff] at hg
    simp [posting, hp, hnone.2, mergeTiers]
  · exact mergeCursor_eq_take (h.cursor th) (h.cold_sorted th) (h.pending_sorted th)
      (h.pending_sorted th) (fun _ _ => Iff.rfl)

/-- An ascending list of 32-bit ids has at most `2 ^ 32` of them. -/
theorem length_le_of_sorted {v : List FileId} (hv : v.SortedLT) : v.length ≤ 2 ^ 32 := by
  have hn : (v.map UInt32.toNat).Nodup := hv.nodup.map (fun _ _ => UInt32.toNat_inj.mp)
  have hs : v.map UInt32.toNat ⊆ List.range (2 ^ 32) := by
    intro n hn
    obtain ⟨x, -, rfl⟩ := List.mem_map.mp hn
    exact List.mem_range.mpr x.toNat_lt
  simpa using (List.subperm_of_subset hn hs).length_le

theorem Sound.mergeTiersLocked_max (h : Sound ix p) (th : TokenHash) :
    (ix.mergeTiersLocked th USIZE_MAX).getD [] = posting ix p th := by
  rw [h.mergeTiersLocked, List.take_of_length_le]
  exact (length_le_of_sorted (h.posting_sorted th)).trans (by decide)

/-- A forward search of the cursor answers membership and keeps what is not below the target. -/
theorem contains_reads {c : PostingCursor} {ids : List FileId} (hc : c.Reads ids)
    (hs : ids.SortedLT) (target : FileId) :
    ((c.contains target).1 = true ↔ target ∈ ids) ∧
      (c.contains target).2.Reads (ids.dropWhile (· < target)) := by
  induction ids generalizing c with
  | nil =>
    have hcur : c.cur = none := hc
    unfold PostingCursor.contains
    split
    · rename_i head hh
      rw [hcur] at hh
      cases hh
    · simpa using hc
  | cons a ids ih =>
    have hcur : c.cur = some a := hc.1
    have hgt := (List.pairwise_cons.mp hs.pairwise).1
    unfold PostingCursor.contains
    split
    · rename_i head hh
      obtain rfl : a = head := Option.some.inj (hcur.symm.trans hh)
      by_cases hlt : a < target
      · rw [if_pos hlt, List.dropWhile_cons_of_pos (by simpa using hlt)]
        obtain ⟨hm, hr⟩ := ih hc.bump (tail_sorted hs)
        refine ⟨?_, hr⟩
        rw [hm, List.mem_cons]
        exact ⟨Or.inr, fun h => h.resolve_left hlt.ne'⟩
      · rw [if_neg hlt, List.dropWhile_cons_of_neg (by simpa using hlt)]
        refine ⟨?_, hc⟩
        rw [beq_iff_eq, List.mem_cons]
        constructor
        · exact fun h => Or.inl h.symm
        · rintro (h | h)
          · exact h.symm
          · exact absurd (hgt target h) (fun hat => hlt hat)
    · rename_i hn
      rw [hcur] at hn
      cases hn

theorem retainToken_eq_filter {cur : Option PostingCursor} {cold result : List FileId}
    {pend hot : Option (List FileId)} (hcur : CursorReads cur cold) (hc : cold.SortedLT)
    (hp : (pend.getD []).SortedLT) (hh : (hot.getD []).SortedLT) (hr : result.SortedLT) :
    retainToken cur pend hot result =
      result.filter (fun x => x ∈ hot.getD [] ∨ (x ∈ cold ∧ x ∉ pend.getD [])) := by
  have hdel : ∀ (o : Option (List FileId)), (o.getD []).SortedLT → ∀ x,
      (o.elim false (Ascending.contains · x) = true ↔ x ∈ o.getD []) := by
    intro o ho x
    cases o with
    | none => simp
    | some v => exact Ascending.contains_iff ho x
  induction result generalizing cur cold with
  | nil => rfl
  | cons fh rest ih =>
    have hgt := (List.pairwise_cons.mp hr.pairwise).1
    have hstep : (cur.elim false (fun c => (c.contains fh).1) = true ↔ fh ∈ cold) ∧
        CursorReads (cur.map (fun c => (c.contains fh).2)) (cold.dropWhile (· < fh)) := by
      cases cur with
      | none =>
        obtain rfl : cold = [] := hcur
        exact ⟨by simp, rfl⟩
      | some c => exact contains_reads hcur hc fh
    have hrest := ih hstep.2 (hc.pairwise.sublist (List.dropWhile_sublist _)).sortedLT
      (tail_sorted hr)
    have hfilter : rest.filter (fun x => x ∈ hot.getD [] ∨
          (x ∈ cold.dropWhile (· < fh) ∧ x ∉ pend.getD [])) =
        rest.filter (fun x => x ∈ hot.getD [] ∨ (x ∈ cold ∧ x ∉ pend.getD [])) := by
      refine List.filter_congr (fun x hx => ?_)
      have hm : x ∈ cold.dropWhile (· < fh) ↔ x ∈ cold := mem_deleted_rest (hgt x hx).le
      simp only [hm]
    rw [retainToken, List.filter_cons]
    simp only [hrest, hfilter]
    have hcond : ((cur.elim false (fun c => (c.contains fh).1) &&
          !pend.elim false (Ascending.contains · fh)) ||
          hot.elim false (Ascending.contains · fh)) = true ↔
        (fh ∈ hot.getD [] ∨ (fh ∈ cold ∧ fh ∉ pend.getD [])) := by
      rw [Bool.or_eq_true, Bool.and_eq_true, hstep.1, Bool.not_eq_true', ← Bool.not_eq_true,
        hdel pend hp, hdel hot hh]
      tauto
    by_cases hm : fh ∈ hot.getD [] ∨ (fh ∈ cold ∧ fh ∉ pend.getD [])
    · rw [if_pos (hcond.mpr hm), if_pos (by simpa using hm)]
    · rw [if_neg (fun h => hm (hcond.mp h)), if_neg (by simpa using hm)]

theorem Sound.retainToken (h : Sound ix p) (th : TokenHash) {result : List FileId}
    (hr : result.SortedLT) :
    retainToken ((ix.cold.get th).bind PostingCursor.new) (ix.pendingRemovals th) (ix.hot th)
      result = result.filter (· ∈ posting ix p th) := by
  rw [retainToken_eq_filter (h.cursor th) (h.cold_sorted th) (h.pending_sorted th)
    (h.hot_sorted th) hr]
  exact List.filter_congr (fun x _ => by simp only [h.mem_posting])

theorem Sound.posting_of_absent (h : Sound ix p) {th : TokenHash}
    (ha : ix.cold.get th = none ∧ ix.hot th = none) : posting ix p th = [] := by
  have hp : p th = none := by
    have hg := ha.1
    rwa [h.cold.get, Option.map_eq_none_iff] at hg
  simp [posting, hp, ha.2, mergeTiers]

theorem Sound.intersectRest (h : Sound ix p) (hashes : List TokenHash) {result : List FileId}
    (hr : result.SortedLT) :
    (ix.intersectRest result hashes).SortedLT ∧ ∀ x, x ∈ ix.intersectRest result hashes ↔
      x ∈ result ∧ ∀ th ∈ hashes, x ∈ posting ix p th := by
  induction hashes generalizing result with
  | nil => exact ⟨hr, fun x => by simp [KeywordIndex.intersectRest]⟩
  | cons th hashes ih =>
    rw [KeywordIndex.intersectRest]
    by_cases ha : ix.cold.get th = none ∧ ix.hot th = none
    · rw [if_pos ha]
      refine ⟨List.Pairwise.nil.sortedLT, fun x => ?_⟩
      simp [h.posting_of_absent ha]
    · rw [if_neg ha]
      simp only [h.retainToken th hr]
      by_cases he : result.filter (· ∈ posting ix p th) = []
      · rw [if_pos he]
        refine ⟨List.Pairwise.nil.sortedLT, fun x => ?_⟩
        rw [List.filter_eq_nil_iff] at he
        simp only [List.not_mem_nil, List.mem_cons, forall_eq_or_imp, false_iff]
        rintro ⟨hx, hm, -⟩
        exact he x hx (by simpa using hm)
      · rw [if_neg he]
        obtain ⟨hs, hm⟩ := ih (Ascending.filter_sorted hr _)
        refine ⟨hs, fun x => ?_⟩
        rw [hm, List.mem_filter, decide_eq_true_iff, List.forall_mem_cons, and_assoc]

theorem seedIndex_lt (ix : KeywordIndex) (hashes : List TokenHash) (hne : hashes ≠ []) :
    ix.seedIndex hashes < hashes.length := by
  set key : TokenHash → Nat := fun h => if ix.approxLen h = 0 then USIZE_MAX else ix.approxLen h
  have hsome : hashes.argmin key ≠ none := mt List.argmin_eq_none.mp hne
  obtain ⟨m, hm⟩ := Option.ne_none_iff_exists'.mp hsome
  refine List.findIdx_lt_length.mpr ⟨m, List.argmin_mem hm, ?_⟩
  simpa using fun g hg => List.le_of_mem_argmin hg hm

theorem findIntersection_eq (ix : KeywordIndex) {tokens : List Str} (hne : tokens ≠ []) :
    ix.findIntersection tokens =
      ix.intersectFrom tokens (ix.seedIndex (tokens.map tokenHash)) := by
  rw [KeywordIndex.findIntersection, if_neg hne]
  rfl

theorem Sound.intersectFrom (h : Sound ix p) {tokens : List Str} {seed : Nat}
    (hlt : seed < tokens.length) :
    (ix.intersectFrom tokens seed).SortedLT ∧ ∀ x, x ∈ ix.intersectFrom tokens seed ↔
      ∀ t ∈ tokens, x ∈ posting ix p (tokenHash t) := by
  set hashes := tokens.map tokenHash with hhashes
  have hlt' : seed < hashes.length := by rwa [hhashes, List.length_map]
  have hmat : (ix.materialize hashes[seed]).getD [] = posting ix p hashes[seed] :=
    h.mergeTiersLocked_max _
  have hall : ∀ x, (∀ t ∈ tokens, x ∈ posting ix p (tokenHash t)) ↔
      x ∈ posting ix p hashes[seed] ∧ ∀ th ∈ hashes.eraseIdx seed, x ∈ posting ix p th := by
    intro x
    have hmem : ∀ th, th ∈ hashes ↔ th = hashes[seed] ∨ th ∈ hashes.eraseIdx seed :=
      fun th => (List.getElem_cons_eraseIdx_perm hlt').symm.mem_iff.trans List.mem_cons
    have hmap : (∀ t ∈ tokens, x ∈ posting ix p (tokenHash t)) ↔
        ∀ th ∈ hashes, x ∈ posting ix p th := by simp [hhashes]
    rw [hmap]
    simp only [hmem, or_imp, forall_and, forall_eq]
  simp only [KeywordIndex.intersectFrom, ← hhashes, List.getD_eq_getElem _ _ hlt']
  cases hv : ix.materialize hashes[seed] with
  | none =>
    have hnil : posting ix p hashes[seed] = [] := by rw [← hmat, hv]; rfl
    exact ⟨List.Pairwise.nil.sortedLT, fun x => by rw [hall, hnil]; simp⟩
  | some v =>
    obtain rfl : v = posting ix p hashes[seed] := by rw [← hmat, hv]; rfl
    by_cases hnil : posting ix p hashes[seed] = []
    · simp only [if_pos hnil]
      exact ⟨List.Pairwise.nil.sortedLT, fun x => by rw [hall, hnil]; simp⟩
    · simp only [if_neg hnil]
      obtain ⟨hs, hm⟩ := h.intersectRest (hashes.eraseIdx seed) (h.posting_sorted hashes[seed])
      exact ⟨hs, fun x => by rw [hm, hall]⟩

theorem Sound.findIntersection (h : Sound ix p) {tokens : List Str} (hne : tokens ≠ []) :
    (ix.findIntersection tokens).SortedLT ∧ ∀ x, x ∈ ix.findIntersection tokens ↔
      ∀ t ∈ tokens, x ∈ posting ix p (tokenHash t) := by
  rw [findIntersection_eq ix hne]
  refine h.intersectFrom ?_
  have hlt := seedIndex_lt ix (tokens.map tokenHash) (by simpa using hne)
  rwa [List.length_map] at hlt

theorem sortDedup_sorted (v : List FileId) : (sortDedup v).SortedLT := by
  have hle : (sortDedup v).Pairwise (· ≤ ·) := by
    have h : (v.mergeSort (fun a b => a ≤ b)).Pairwise (fun a b => decide (a ≤ b) = true) :=
      List.pairwise_mergeSort (by simpa using fun a b c => le_trans) (by simpa using le_total) v
    rw [sortDedup]
    simpa using h.sublist (List.dedup_sublist _)
  have hnodup : (sortDedup v).Nodup := List.nodup_dedup _
  exact (hle.and hnodup).imp (fun hab => lt_of_le_of_ne hab.1 hab.2) |>.sortedLT

@[simp] theorem mem_sortDedup (v : List FileId) (x : FileId) : x ∈ sortDedup v ↔ x ∈ v := by
  rw [sortDedup, List.mem_dedup, List.mem_mergeSort]

theorem Sound.mem_unionOf (h : Sound ix p) (g : List Str) (x : FileId) :
    x ∈ ix.unionOf g ↔ ∃ t ∈ g, x ∈ posting ix p (tokenHash t) := by
  simp only [KeywordIndex.unionOf, List.mem_flatMap, KeywordIndex.materialize,
    h.mergeTiersLocked_max]

theorem Sound.retainGroups (h : Sound ix p) (groups : List (List Str)) {result : List FileId}
    (hr : result.SortedLT) :
    (ix.retainGroups result groups).SortedLT ∧ ∀ x, x ∈ ix.retainGroups result groups ↔
      x ∈ result ∧ ∀ g ∈ groups, ∃ t ∈ g, x ∈ posting ix p (tokenHash t) := by
  induction groups generalizing result with
  | nil => exact ⟨hr, fun x => by simp [KeywordIndex.retainGroups]⟩
  | cons g groups ih =>
    have hu : ∀ x, x ∈ sortDedup (ix.unionOf g) ↔ ∃ t ∈ g, x ∈ posting ix p (tokenHash t) :=
      fun x => by rw [mem_sortDedup, h.mem_unionOf]
    rw [KeywordIndex.retainGroups]
    simp only
    split
    · rename_i hnil
      refine ⟨List.Pairwise.nil.sortedLT, fun x => ?_⟩
      simp only [hnil, List.not_mem_nil] at hu
      simp [← hu]
    · have hm : ∀ x, x ∈ result.filter (Ascending.contains (sortDedup (ix.unionOf g))) ↔
          x ∈ result ∧ ∃ t ∈ g, x ∈ posting ix p (tokenHash t) := fun x => by
        rw [List.mem_filter, Ascending.contains_iff (sortDedup_sorted _), hu]
      split
      · rename_i hnil
        refine ⟨List.Pairwise.nil.sortedLT, fun x => ?_⟩
        have hx := hm x
        rw [hnil] at hx
        rw [List.forall_mem_cons, ← and_assoc, ← hx]
        simp
      · obtain ⟨hs, hi⟩ := ih (Ascending.filter_sorted hr _)
        exact ⟨hs, fun x => by rw [hi, hm, List.forall_mem_cons, and_assoc]⟩

theorem forall_groups_iff {P : List Str → Prop} {groups : List (List Str)}
    (hg : ∀ g ∈ groups, g ≠ []) :
    (∀ g ∈ groups, P g) ↔
      (∀ t ∈ (groups.filter (·.length = 1)).map (·.headD []), P [t]) ∧
        ∀ g ∈ groups.filter (1 < ·.length), P g := by
  have hone : ∀ g : List Str, g.length = 1 → [g.headD []] = g := by
    intro g hl
    obtain ⟨t, rfl⟩ := List.length_eq_one_iff.mp hl
    rfl
  simp only [List.forall_mem_map, List.mem_filter, decide_eq_true_eq, and_imp]
  constructor
  · intro h
    exact ⟨fun g hgm hl => by rw [hone g hl]; exact h g hgm, fun g hgm _ => h g hgm⟩
  · rintro ⟨h1, h2⟩ g hgm
    by_cases hl : g.length = 1
    · rw [← hone g hl]
      exact h1 g hgm hl
    · have hpos := List.length_pos_iff.mpr (hg g hgm)
      exact h2 g hgm (by omega)

theorem Sound.retainGroups_or_nil (h : Sound ix p) (groups : List (List Str))
    {result : List FileId} (hr : result.SortedLT) :
    (if result = [] then [] else ix.retainGroups result groups).SortedLT ∧
      ∀ x, x ∈ (if result = [] then [] else ix.retainGroups result groups) ↔
        x ∈ result ∧ ∀ g ∈ groups, ∃ t ∈ g, x ∈ posting ix p (tokenHash t) := by
  split
  · rename_i hnil
    subst hnil
    exact ⟨hr, fun x => by simp⟩
  · exact h.retainGroups groups hr

/-- A grouped query finds exactly the ids that every group has under one of its words. -/
theorem Sound.findGrouped (h : Sound ix p) {groups : List (List Str)} (hne : groups ≠ [])
    (hg : ∀ g ∈ groups, g ≠ []) :
    (ix.findGrouped groups).SortedLT ∧ ∀ x, x ∈ ix.findGrouped groups ↔
      ∀ g ∈ groups, ∃ t ∈ g, x ∈ posting ix p (tokenHash t) := by
  have hsplit := fun x => forall_groups_iff
    (P := fun g => ∃ t ∈ g, x ∈ posting ix p (tokenHash t)) hg
  simp only [List.mem_singleton, exists_eq_left] at hsplit
  rw [KeywordIndex.findGrouped, if_neg hne]
  simp only [hsplit]
  have hsome : (groups.filter (·.length = 1)).map (·.headD []) = [] →
      groups.filter (1 < ·.length) ≠ [] := by
    intro hs hm
    obtain ⟨g, hgm⟩ := List.exists_mem_of_ne_nil groups hne
    refine (forall_groups_iff (P := fun _ => False) hg).mpr ⟨?_, ?_⟩ g hgm
    · rw [hs]
      exact List.forall_mem_nil _
    · rw [hm]
      exact List.forall_mem_nil _
  generalize (groups.filter (·.length = 1)).map (·.headD []) = singles at hsome ⊢
  cases hm : groups.filter (1 < ·.length) with
  | nil =>
    obtain ⟨hs, hi⟩ := h.findIntersection (fun hs => hsome hs hm)
    exact ⟨hs, fun x => by simp [hi]⟩
  | cons g rest =>
    by_cases hs : singles = []
    · obtain ⟨hr, hi⟩ := h.retainGroups_or_nil rest (sortDedup_sorted (ix.unionOf g))
      simp only [if_pos hs]
      refine ⟨hr, fun x => ?_⟩
      rw [hi, mem_sortDedup, h.mem_unionOf, List.forall_mem_cons]
      simp [hs]
    · obtain ⟨hf, hfi⟩ := h.findIntersection hs
      obtain ⟨hr, hi⟩ := h.retainGroups_or_nil (g :: rest) hf
      simp only [if_neg hs]
      exact ⟨hr, fun x => by rw [hi, hfi]⟩

end Ed2kServer.Keyword.Lookup
