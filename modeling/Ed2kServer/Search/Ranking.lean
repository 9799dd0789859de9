import Ed2kServer.Keyword.Lookup
import Ed2kServer.Search.UdpSearch

namespace Ed2kServer.Search.Ranking

open Ed2kServer.Lib.TopN
open Ed2kServer.Text.Chars Ed2kServer.Keyword.Tokenizer Ed2kServer.Keyword.Index
open Ed2kServer.Keyword.MergeTiers
open Ed2kServer.Slab.Record Ed2kServer.Slab.Store
open Ed2kServer.Search.Tree Ed2kServer.Search.Evaluate Ed2kServer.Search.Groups
open Ed2kServer.Search.HashRef Ed2kServer.Search.Handle Ed2kServer.Search.Scan
open Ed2kServer.Search.UdpSearch

theorem seedIndex_one (ix : KeywordIndex) (h : TokenHash) : ix.seedIndex [h] = 0 := by
  simp [KeywordIndex.seedIndex]

/-- The whole list when the cap is not reached. -/
theorem findGroupedCapped_eq {ix : KeywordIndex} {groups : List (List Str)} {cap : Nat}
    (h : (ix.findGrouped groups).length < cap) (hcap : cap ≤ USIZE_MAX) :
    ix.findGroupedCapped groups cap = ix.findGrouped groups := by
  unfold KeywordIndex.findGroupedCapped
  split
  · rename_i t
    have hfull : ix.findGrouped [[t]] = (ix.materialize (tokenHash t)).getD [] := by
      cases hm : ix.materialize (tokenHash t) with
      | none => simp [KeywordIndex.findGrouped, KeywordIndex.findIntersection, seedIndex_one, hm]
      | some v =>
        simp [KeywordIndex.findGrouped, KeywordIndex.findIntersection, seedIndex_one, hm,
          KeywordIndex.intersectRest]
    rw [hfull] at h ⊢
    rw [KeywordIndex.materializePrefix]
    rw [KeywordIndex.materialize] at h ⊢
    by_cases habs : ix.cold.get (tokenHash t) = none ∧ ix.hot (tokenHash t) = none
    · simp [KeywordIndex.mergeTiersLocked, habs]
    · simp only [KeywordIndex.mergeTiersLocked, if_neg habs, Option.getD_some] at h ⊢
      rw [mergeCursor_take hcap, List.take_of_length_le h.le]
  · rfl

variable (U : Unicode) (st : Server)

/-- The live records behind a list of ids. -/
def candidates (q : Query) (ids : List FileId) : List Candidate :=
  ids.filterMap (withRecordMedia st.fileSlab · q.wantMedia)

/-- Of the candidates it serves, the best ranked, the best first. -/
def bestOf (q : Query) (ids : List FileId) : List FileRecord :=
  ((ranked rankKey (((candidates st q ids).filter (serves U st q)).map q.ranked)).take
    q.maxResults).map (·.record)

variable {q : Query}

theorem lookUp_heap {p : Progress} (ids : List FileId) (hf : Falling rankKey p.heap)
    (hlen : p.heap.length ≤ q.maxResults) (hs : p.scanned + ids.length ≤ q.rankScan) :
    (q.lookUp U st p ids).heap =
      (((candidates st q ids).filter (serves U st q)).map q.ranked).foldl
        (keepBest rankKey q.maxResults) p.heap := by
  induction ids generalizing p with
  | nil => rfl
  | cons id ids ih =>
    simp only [List.length_cons] at hs
    cases hc : withRecordMedia st.fileSlab id q.wantMedia with
    | none =>
      rw [Query.lookUp, hc]
      simp only [candidates, List.filterMap_cons, hc]
      exact ih hf hlen (by omega)
    | some c =>
      have hheap := consider_heap U st (p := p) (c := c) hf hlen
      have hgoOn : (q.consider U st c p).2 = false → ids = [] := by
        rw [Query.consider]
        split
        · simp
        · intro hstop
          have hle : q.rankScan ≤ p.scanned + 1 := Nat.not_lt.mp (of_decide_eq_false hstop)
          exact List.length_eq_zero_iff.mp (by omega)
      have hstep : (q.lookUp U st p (id :: ids)).heap =
          (q.lookUp U st (q.consider U st c p).1 ids).heap := by
        rw [Query.lookUp, hc]
        cases hg : (q.consider U st c p).2 with
        | true => simp [hg]
        | false => simp [hg, hgoOn hg, Query.lookUp]
      rw [hstep, hheap]
      simp only [candidates, List.filterMap_cons, hc]
      by_cases hserves : serves U st q c = true
      · rw [if_pos hserves, List.filter_cons_of_pos hserves, List.map_cons, List.foldl_cons]
        exact ih (keepBest_falling hf _) (List.length_take_le _ _) (by simp only; omega)
      · rw [if_neg hserves, List.filter_cons_of_neg hserves]
        exact ih hf hlen (by simp only; omega)

/-- The UDP test and push of one candidate. -/
theorem udpPush_heap {heap : List Ranked} (hf : Falling rankKey heap)
    (hlen : heap.length ≤ q.maxResults) (c : Candidate) :
    (match Query.udpPush U st q heap c with
      | some r =>
        if q.maxResults < (insertRanked rankKey r heap).length then
          (insertRanked rankKey r heap).dropLast
        else insertRanked rankKey r heap
      | none => heap) =
      if serves U st q c then keepBest rankKey q.maxResults heap (q.ranked c) else heap := by
  rw [Query.udpPush, serves]
  by_cases hs : c.entry.sources = []
  · simp [hs]
  · cases ha : q.accepts U c with
    | false => simp [hs]
    | true =>
      cases hw : st.isWithheld c.entry.hash c.entry.name with
      | true =>
        simp only [hs, Bool.not_true, Bool.false_eq_true, if_true, ite_self]
        simp
      | false =>
        simp only [hs, if_false, Bool.not_true, Bool.false_eq_true]
        by_cases hfull : q.maxResults ≤ heap.length ∧
            heap.getLast?.any (fun worst => decide (rankKey (q.ranked c) ≤ rankKey worst)) = true
        · cases hlast : heap.getLast? with
          | none =>
            rw [hlast] at hfull
            cases hfull.2
          | some worst =>
            have hle : rankKey (q.ranked c) ≤ rankKey worst := by
              simpa [hlast] using hfull.2
            have hkept := keepBest_of_le hf (le_antisymm hlen hfull.1) hlast hle
            rw [hlast] at hfull
            rw [if_pos hfull, hkept, ite_self]
        · simp only [if_neg hfull, push_eq_keepBest rankKey hlen]
          simp [hs]

theorem udpLookUp_heap {examined : Nat} {heap : List Ranked} (ids : List FileId)
    (hf : Falling rankKey heap) (hlen : heap.length ≤ q.maxResults)
    (hs : examined + ids.length ≤ q.rankScan) :
    Query.udpLookUp U st q examined heap ids =
      (((candidates st q ids).filter (serves U st q)).map q.ranked).foldl
        (keepBest rankKey q.maxResults) heap := by
  induction ids generalizing examined heap with
  | nil => rfl
  | cons id ids ih =>
    simp only [List.length_cons] at hs
    rw [Query.udpLookUp, if_neg (by omega)]
    cases hc : withRecordMedia st.fileSlab id q.wantMedia with
    | none =>
      simp only [candidates, List.filterMap_cons, hc, Option.bind_none]
      exact ih hf hlen (by omega)
    | some c =>
      have hpush := udpPush_heap U st hf hlen c
      have hstep : Query.udpLookUp U st q (examined + 1)
          (if serves U st q c then keepBest rankKey q.maxResults heap (q.ranked c) else heap)
            ids =
          (match Query.udpPush U st q heap c with
          | some r => Query.udpLookUp U st q (examined + 1)
              (if q.maxResults < (insertRanked rankKey r heap).length then
                (insertRanked rankKey r heap).dropLast else insertRanked rankKey r heap) ids
          | none => Query.udpLookUp U st q (examined + 1) heap ids) := by
        rw [← hpush]
        cases Query.udpPush U st q heap c <;> rfl
      simp only [Option.bind_some, candidates, List.filterMap_cons, hc]
      refine hstep.symm.trans ?_
      by_cases hserves : serves U st q c = true
      · rw [if_pos hserves, List.filter_cons_of_pos hserves, List.map_cons, List.foldl_cons]
        exact ih (keepBest_falling hf _) (List.length_take_le _ _) (by omega)
      · rw [if_neg hserves, List.filter_cons_of_neg hserves]
        exact ih hf hlen (by omega)

/-- One id, one candidate, one entry of the ranking. -/
theorem rankKey_inj {ids ids' : List FileId} {a b : Ranked}
    (ha : a ∈ ((candidates st q ids).filter (serves U st q)).map q.ranked)
    (hb : b ∈ ((candidates st q ids').filter (serves U st q)).map q.ranked)
    (h : rankKey a = rankKey b) : a = b := by
  obtain ⟨c, hc, rfl⟩ := List.mem_map.mp ha
  obtain ⟨d, hd, rfl⟩ := List.mem_map.mp hb
  obtain ⟨i, -, hi⟩ := List.mem_filterMap.mp (List.mem_of_mem_filter hc)
  obtain ⟨j, -, hj⟩ := List.mem_filterMap.mp (List.mem_of_mem_filter hd)
  obtain ⟨r, hr, rfl⟩ := Option.map_eq_some_iff.mp hi
  obtain ⟨s, hs, rfl⟩ := Option.map_eq_some_iff.mp hj
  have hid : i.toNat = j.toNat := by
    have hsnd := congrArg (fun k => (ofLex (ofLex k).2).2) h
    exact OrderDual.toDual_inj.mp hsnd
  obtain rfl := UInt32.toNat_inj.mp hid
  obtain rfl : r = s := Option.some.inj (hr.symm.trans hs)
  rfl

theorem bestOf_perm {ids ids' : List FileId} (h : ids.Perm ids') :
    bestOf U st q ids = bestOf U st q ids' := by
  have hperm : (((candidates st q ids).filter (serves U st q)).map q.ranked).Perm
      (((candidates st q ids').filter (serves U st q)).map q.ranked) :=
    ((h.filterMap _).filter _).map _
  rw [bestOf, bestOf, ranked_eq_of_perm hperm (fun a ha b hb => rankKey_inj U st ha hb)]

/-- In whatever order the candidates come, the TCP walk ends with the best of them. -/
theorem lookUp_bestOf {ids ids' : List FileId} (h : ids'.Perm ids)
    (hs : ids.length ≤ q.rankScan) :
    (q.lookUp U st ⟨[], 0, 0⟩ ids').heap.map (·.record) = bestOf U st q ids := by
  have hheap := lookUp_heap U st (p := ⟨[], 0, 0⟩) ids' List.Pairwise.nil (Nat.zero_le _)
    (by simpa [h.length_eq] using hs)
  rw [hheap, foldl_keepBest_nil, ← bestOf_perm U st h, bestOf]

theorem udpLookUp_bestOf {ids ids' : List FileId} (h : ids'.Perm ids)
    (hs : ids.length ≤ q.rankScan) :
    (Query.udpLookUp U st q 0 [] ids').map (·.record) = bestOf U st q ids := by
  rw [udpLookUp_heap U st ids' List.Pairwise.nil (Nat.zero_le _)
    (by simpa [h.length_eq] using hs), foldl_keepBest_nil, ← bestOf_perm U st h, bestOf]

variable (tree : SearchNode)

/-- What the TCP path ranks for a tree, and the ids it takes them from. -/
def tcpQuery : Query := query U st (rewritten U st tree) (candidateGroups U (rewritten U st tree))

def keywordIds : List FileId :=
  st.keywordIndex.findGrouped (candidateGroups U (rewritten U st tree))

def udpQueryOf : Query :=
  udpQuery U st (rewritten U st tree) (candidateGroups U (rewritten U st tree))

/-- Both channels rank by the same key, cut at different lengths. -/
theorem udp_bestOf (h : UDP_MAX_SEARCH_RESULTS ≤ (tcpQuery U st tree).maxResults)
    (ids : List FileId) : bestOf U st (udpQueryOf U st tree) ids =
      (bestOf U st (tcpQuery U st tree) ids).take UDP_MAX_SEARCH_RESULTS := by
  rw [bestOf, bestOf, ← List.map_take, List.take_take, Nat.min_eq_left h]
  rfl

/-- A search that is none by hash and keeps a keyword returns, over TCP, the best of its
candidates in whatever order they are visited, and over UDP the first ten of that list. -/
theorem ranking_exact (hhash : ed2kFileSearch U tree = none)
    (hkey : keyTokens U (rewritten U st tree) ≠ [])
    (hmax : UDP_MAX_SEARCH_RESULTS ≤ st.limits.maxSearchResults.toNat) :
    ((keywordIds U st tree).length ≤ (tcpQuery U st tree).rankScan →
      handleSearch U st tree =
          some (bestOf U st (tcpQuery U st tree) (keywordIds U st tree)) ∧
        ∀ ids, ids.Perm (keywordIds U st tree) →
          ((tcpQuery U st tree).lookUp U st ⟨[], 0, 0⟩ ids).heap.map (·.record) =
            bestOf U st (tcpQuery U st tree) (keywordIds U st tree)) ∧
    ((keywordIds U st tree).length ≤ (udpQueryOf U st tree).rankScan →
      udpSearchRanked U st tree =
          some ((bestOf U st (tcpQuery U st tree) (keywordIds U st tree)).take
            UDP_MAX_SEARCH_RESULTS) ∧
        ∀ ids, ids.Perm (keywordIds U st tree) →
          (Query.udpLookUp U st (udpQueryOf U st tree) 0 [] ids).map (·.record) =
            (bestOf U st (tcpQuery U st tree) (keywordIds U st tree)).take
              UDP_MAX_SEARCH_RESULTS) := by
  have hscan := st.limits.searchRankScan.toNat_lt
  have hres := st.limits.maxSearchResults.toNat_lt
  have hcap : ∀ n : Nat, n ≤ 2 ^ 32 → n * 2 + 1 ≤ USIZE_MAX := by
    intro n hn
    simp only [USIZE_MAX]
    omega
  constructor
  · intro hlen
    have hbudget : (tcpQuery U st tree).rankScan ≤ 2 ^ 32 := max_le hscan.le hres.le
    refine ⟨?_, fun ids hids => lookUp_bestOf U st hids hlen⟩
    have hids : st.keywordIndex.findGroupedCapped (candidateGroups U (rewritten U st tree))
        ((tcpQuery U st tree).rankScan * 2 + 1) = keywordIds U st tree := by
      apply findGroupedCapped_eq _ (hcap _ hbudget)
      exact lt_of_le_of_lt hlen (by omega)
    have hrun : handleSearch U st tree = some (((tcpQuery U st tree).lookUp U st ⟨[], 0, 0⟩
        (st.keywordIndex.findGroupedCapped (candidateGroups U (rewritten U st tree))
          ((tcpQuery U st tree).rankScan * 2 + 1))).heap.map (·.record)) := by
      simp [handleSearch, searchByHash, hhash, hkey, tcpQuery]
    rw [hrun, hids, lookUp_bestOf U st (List.Perm.refl _) hlen]
  · intro hlen
    have hbudget : (udpQueryOf U st tree).rankScan ≤ 2 ^ 32 :=
      max_le hscan.le (by decide)
    have hcut := udp_bestOf U st tree hmax (keywordIds U st tree)
    refine ⟨?_, fun ids hids => by rw [udpLookUp_bestOf U st hids hlen, hcut]⟩
    have hids : st.keywordIndex.findGroupedCapped (candidateGroups U (rewritten U st tree))
        ((udpQueryOf U st tree).rankScan * 2 + 1) = keywordIds U st tree := by
      apply findGroupedCapped_eq _ (hcap _ hbudget)
      exact lt_of_le_of_lt hlen (by omega)
    have hrun : udpSearchRanked U st tree = some ((Query.udpLookUp U st (udpQueryOf U st tree) 0 []
        (st.keywordIndex.findGroupedCapped (candidateGroups U (rewritten U st tree))
          ((udpQueryOf U st tree).rankScan * 2 + 1))).map (·.record)) := by
      simp [udpSearchRanked, searchByHash, hhash, hkey, udpQueryOf]
    rw [hrun, hids, udpLookUp_bestOf U st (List.Perm.refl _) hlen, hcut]

/-- The film by its hash: an indexable text, no candidate, and one answer on both channels. -/
def byHash : SearchNode := .term "ed2k::00000000000000000000000000000000".toList

/-- A word no file has, and a type. -/
def typoAndType : SearchNode := .bool .and (.term "typo".toList) filmType

def filmWord : SearchNode := .term "movie".toList

theorem ranking_exact_film :
    ((keywordIds basicLatin filmServer filmWord).length ≤
        (tcpQuery basicLatin filmServer filmWord).rankScan →
      handleSearch basicLatin filmServer filmWord =
          some (bestOf basicLatin filmServer (tcpQuery basicLatin filmServer filmWord)
            (keywordIds basicLatin filmServer filmWord)) ∧
        ∀ ids, ids.Perm (keywordIds basicLatin filmServer filmWord) →
          ((tcpQuery basicLatin filmServer filmWord).lookUp basicLatin filmServer
              ⟨[], 0, 0⟩ ids).heap.map (·.record) =
            bestOf basicLatin filmServer (tcpQuery basicLatin filmServer filmWord)
              (keywordIds basicLatin filmServer filmWord)) ∧
    ((keywordIds basicLatin filmServer filmWord).length ≤
        (udpQueryOf basicLatin filmServer filmWord).rankScan →
      udpSearchRanked basicLatin filmServer filmWord =
          some ((bestOf basicLatin filmServer (tcpQuery basicLatin filmServer filmWord)
            (keywordIds basicLatin filmServer filmWord)).take UDP_MAX_SEARCH_RESULTS) ∧
        ∀ ids, ids.Perm (keywordIds basicLatin filmServer filmWord) →
          (Query.udpLookUp basicLatin filmServer (udpQueryOf basicLatin filmServer filmWord)
              0 [] ids).map (·.record) =
            (bestOf basicLatin filmServer (tcpQuery basicLatin filmServer filmWord)
              (keywordIds basicLatin filmServer filmWord)).take UDP_MAX_SEARCH_RESULTS) :=
  ranking_exact basicLatin filmServer filmWord (by decide) (by decide)
    (by decide)

/-- A file named by its hash is no keyword candidate, and a tree whose only word is dropped as
unknown is scanned over TCP and not answered over UDP. -/
theorem ranking_not_exact :
    (keyTokens basicLatin byHash ≠ [] ∧
      (keywordIds basicLatin filmServer byHash).length ≤ 10 ∧
      handleSearch basicLatin filmServer byHash ≠
        some (bestOf basicLatin filmServer (tcpQuery basicLatin filmServer byHash)
          (keywordIds basicLatin filmServer byHash))) ∧
    (keyTokens basicLatin typoAndType ≠ [] ∧
      (keywordIds basicLatin filmServer typoAndType).length ≤ 10 ∧
      handleSearch basicLatin filmServer typoAndType = some [film] ∧
      udpSearchRanked basicLatin filmServer typoAndType = some []) := by
  decide +kernel

end Ed2kServer.Search.Ranking
