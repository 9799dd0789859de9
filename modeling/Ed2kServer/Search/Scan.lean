import Ed2kServer.Search.Handle
import Ed2kServer.Search.Words
import Ed2kServer.Slab.StoreSpec

namespace Ed2kServer.Search.Scan

open Ed2kServer.Lib.TopN
open Ed2kServer.Text.Chars Ed2kServer.Keyword.Tokenizer Ed2kServer.Keyword.Index
open Ed2kServer.Slab.Record Ed2kServer.Slab.Store Ed2kServer.Slab.StoreSpec
open Ed2kServer.Search.Tree Ed2kServer.Search.Evaluate Ed2kServer.Search.Groups
open Ed2kServer.Search.HashRef Ed2kServer.Search.Unknown Ed2kServer.Search.Words
open Ed2kServer.Search.Handle
open Ed2kServer.Search.Handle

variable (U : Unicode) (st : Server)

/-- A sourced file that the query accepts and the filter lets through. -/
def serves (q : Query) (c : Candidate) : Bool :=
  c.entry.sources ≠ [] && q.accepts U c && !st.isWithheld c.entry.hash c.entry.name

/-- What a search has to answer: of all live files it serves, the best ranked. -/
def bestMatches (tree : SearchNode) : List FileRecord :=
  let q := query U st tree (candidateGroups U tree)
  let found := ((liveRecords st.fileSlab q.wantMedia).filter (serves U st q)).map q.ranked
  ((ranked rankKey found).take q.maxResults).map (·.record)

variable {q : Query}

/-- The heap holds the best so far. -/
theorem offer_eq {heap : List Ranked} (hf : Falling rankKey heap)
    (hlen : heap.length ≤ q.maxResults) (c : Candidate) :
    q.offer st heap c = if st.isWithheld c.entry.hash c.entry.name then heap
      else keepBest rankKey q.maxResults heap (q.ranked c) := by
  have hcut := push_eq_keepBest rankKey hlen (q.ranked c)
  rw [Query.offer]
  cases hw : st.isWithheld c.entry.hash c.entry.name with
  | true => simp
  | false =>
    simp only [Bool.not_false, Bool.and_true, Bool.false_eq_true, if_false]
    cases hlast : heap.getLast? with
    | none => simpa using hcut
    | some worst =>
      simp only
      by_cases hkeep : (decide (heap.length < q.maxResults) ||
          decide (rankKey worst < rankKey (q.ranked c))) = true
      · rw [if_pos hkeep, hcut]
      · rw [if_neg hkeep]
        simp only [Bool.or_eq_true, decide_eq_true_eq, not_or, not_lt] at hkeep
        exact (keepBest_of_le hf (le_antisymm hlen hkeep.1) hlast hkeep.2).symm

theorem consider_heap {p : Progress} {c : Candidate} (hf : Falling rankKey p.heap)
    (hlen : p.heap.length ≤ q.maxResults) :
    (q.consider U st c p).1 =
      ⟨if serves U st q c then keepBest rankKey q.maxResults p.heap (q.ranked c) else p.heap,
        p.nCandidates, p.scanned + 1⟩ := by
  rw [Query.consider, serves]
  by_cases hs : c.entry.sources = []
  · simp [hs]
  · cases ha : q.accepts U c with
    | false => simp [hs]
    | true =>
      simp only [hs, if_false, if_true, offer_eq st hf hlen]
      cases st.isWithheld c.entry.hash c.entry.name <;> simp [hs]

theorem keepBest_falling {heap : List Ranked} (hf : Falling rankKey heap) (r : Ranked) :
    Falling rankKey (keepBest rankKey q.maxResults heap r) :=
  falling_take (insertRanked_falling hf r) _

/-- While both budgets last the scan offers every candidate it serves. -/
theorem scan_heap {p : Progress} (cs : List Candidate) (hf : Falling rankKey p.heap)
    (hlen : p.heap.length ≤ q.maxResults) (hn : p.nCandidates + cs.length ≤ MAX_UNINDEXED_SCAN)
    (hs : p.scanned + cs.length ≤ q.rankScan) :
    (q.scan U st p cs).heap =
      ((cs.filter (serves U st q)).map q.ranked).foldl (keepBest rankKey q.maxResults)
        p.heap := by
  induction cs generalizing p with
  | nil => rfl
  | cons c cs ih =>
    simp only [List.length_cons] at hn hs
    set counted : Progress := { p with nCandidates := p.nCandidates + 1 } with hcounted
    have hheap := consider_heap U st (p := counted) (c := c) hf hlen
    have hgoOn : (q.consider U st c counted).2 = false → cs = [] := by
      rw [Query.consider]
      split
      · simp
      · intro hstop
        have hle : q.rankScan ≤ p.scanned + 1 := Nat.not_lt.mp (of_decide_eq_false hstop)
        exact List.length_eq_zero_iff.mp (by omega)
    have hstep : (q.scan U st p (c :: cs)).heap =
        (q.scan U st (q.consider U st c counted).1 cs).heap := by
      rw [Query.scan, if_neg (by omega)]
      cases hg : (q.consider U st c counted).2 with
      | true => simp [← hcounted, hg]
      | false => simp [← hcounted, hg, hgoOn hg, Query.scan]
    rw [hstep, hheap]
    by_cases hserves : serves U st q c = true
    · rw [if_pos hserves, List.filter_cons_of_pos hserves, List.map_cons, List.foldl_cons]
      exact ih (keepBest_falling hf _) (List.length_take_le _ _) (by simp only [hcounted]; omega)
        (by simp only [hcounted]; omega)
    · rw [if_neg hserves, List.filter_cons_of_neg hserves]
      exact ih hf hlen (by simp only [hcounted]; omega) (by simp only [hcounted]; omega)

variable {U} {st}

theorem length_liveRecords (s : FileSlab) (want : Bool) :
    (liveRecords s want).length = liveNumber s := by
  rw [liveRecords, List.length_flatMap, liveNumber, Fin.sum_univ_def]
  congr 1
  refine List.map_congr_left (fun no _ => ?_)
  generalize (s.shards no).records = records
  generalize 0 = k
  induction records generalizing k with
  | nil => rfl
  | cons r records ih =>
    rw [List.zipIdx_cons, List.countP_cons]
    cases hr : r.alive with
    | true => simp [hr, ih]
    | false => simp [hr, ih]

/-- Nothing is looked up in the rewritten tree that was not looked up before. -/
theorem lookedUp_of_survives {isKnown : Str → Bool} {node : SearchNode}
    (h : Survives U isKnown node) : LookedUp U false node := by
  induction node with
  | term s =>
    refine ⟨rfl, fun hnil => h.2 ?_⟩
    rw [remainingText]
    split
    · exact hnil
    · exact lookupTokens_filter hnil _
  | bool op l r ihl ihr =>
    cases op with
    | and => exact h.imp ihl ihr
    | or => exact h
    | not =>
      refine h.imp (fun hl => ?_) id
      split at hl
      · exact hl
      · exact ihl hl
  | metaTag tagName value => exact h
  | numeric tagName op value => exact h

theorem rewritten_groups {tree : SearchNode} (h : candidateGroups U tree = []) :
    candidateGroups U (rewritten U st tree) = [] := by
  rw [rewritten]
  split
  · rw [dropUnknownWords]
    rcases hr : rewriteConjunction U st.keywordIndex.containsToken tree with ⟨_ | a, dropped⟩
    · exact h
    · by_cases hd : dropped = []
      · simpa [hd] using h
      · by_contra hne
        have ha : candidateGroups U a ≠ [] := by simpa [hd] using hne
        have hs := (rewrite_lookedUp (by rw [hr])).mp ((candidateGroups_ne_nil a).mp ha)
        exact (candidateGroups_ne_nil tree).mpr (lookedUp_of_survives hs) h
  · exact h

/-- The live file that a search by hash may serve. -/
def NamedFile (st : Server) (hash : FileHash) (size : UInt64) (r : FileRecord) : Prop :=
  (∃ id, st.fileSlab.get id = some r ∧ r.hash = hash) ∧ r.sources ≠ [] ∧
    (size = 0 ∨ r.size = size) ∧ st.isWithheld r.hash r.name = false

theorem getByHash_spec (h : SlabInv st.fileSlab) (hash : FileHash) :
    ∃ o, getByHash st.fileSlab hash = some o ∧
      ∀ r, o = some r ↔ ∃ id, st.fileSlab.get id = some r ∧ r.hash = hash := by
  obtain ⟨o, ho, hspec⟩ := idOf_spec h hash
  refine ⟨o.bind st.fileSlab.get, by simp [getByHash, ho], fun r => ?_⟩
  rw [Option.bind_eq_some_iff]
  constructor
  · rintro ⟨id, hid, hr⟩
    obtain ⟨r', hr', hh⟩ := (hspec id).mp hid
    obtain rfl : r' = r := Option.some.inj (hr'.symm.trans hr)
    exact ⟨id, hr, hh⟩
  · rintro ⟨id, hr, hh⟩
    exact ⟨id, (hspec id).mpr ⟨r, hr, hh⟩, hr⟩

theorem toList_eq_iff {α : Type} (o : Option α) (l : List α) :
    o.toList = l ↔ l.length ≤ 1 ∧ ∀ a, a ∈ l ↔ o = some a := by
  constructor
  · rintro rfl
    cases o <;> simp [eq_comm]
  · rintro ⟨hlen, hmem⟩
    match l, hlen, hmem with
    | [], _, hmem =>
      cases o with
      | none => rfl
      | some a => exact absurd ((hmem a).mpr rfl) List.not_mem_nil
    | [a], _, hmem =>
      rw [(hmem a).mp List.mem_cons_self]
      rfl

theorem handleSearch_hash {tree : SearchNode} {hash : FileHash} {size : UInt64}
    (h : SlabInv st.fileSlab) (hs : ed2kFileSearch U tree = some (hash, size))
    (found : List FileRecord) : handleSearch U st tree = some found ↔
      found.length ≤ 1 ∧ ∀ r, r ∈ found ↔ NamedFile st hash size r := by
  obtain ⟨o, ho, hspec⟩ := getByHash_spec h hash
  have hrun : handleSearch U st tree = some ((o.filter (fun r => r.sources ≠ [] &&
      (size == 0 || r.size == size) && !st.isWithheld r.hash r.name)).toList) := by
    simp [handleSearch, searchByHash, hs, ho]
  rw [hrun, Option.some.injEq, toList_eq_iff]
  refine and_congr_right (fun _ => forall_congr' (fun r => iff_congr Iff.rfl ?_))
  rw [Option.filter_eq_some_iff, hspec, NamedFile]
  simp [and_assoc]

/-- Without a group there is no list to take candidates from. -/
theorem handleSearch_keyed {tree : SearchNode} (hs : ed2kFileSearch U tree = none)
    (hg : candidateGroups U tree = []) (hk : keyTokens U (rewritten U st tree) ≠ []) :
    handleSearch U st tree = some [] := by
  simp [handleSearch, searchByHash, hs, rewritten_groups hg, hk, KeywordIndex.findGroupedCapped,
    KeywordIndex.findGrouped, Query.lookUp]

theorem handleSearch_scan {tree : SearchNode} (hs : ed2kFileSearch U tree = none)
    (hlive : liveNumber st.fileSlab ≤ min MAX_UNINDEXED_SCAN st.limits.searchRankScan.toNat)
    (hk : keyTokens U (rewritten U st tree) = []) :
    handleSearch U st tree = some (bestMatches U st (rewritten U st tree)) := by
  set q := query U st (rewritten U st tree) (candidateGroups U (rewritten U st tree)) with hq
  have hn : (liveRecords st.fileSlab q.wantMedia).length ≤ MAX_UNINDEXED_SCAN := by
    rw [length_liveRecords]
    exact hlive.trans (Nat.min_le_left _ _)
  have hscan : (liveRecords st.fileSlab q.wantMedia).length ≤ q.rankScan := by
    rw [length_liveRecords]
    exact (hlive.trans (Nat.min_le_right _ _)).trans (Nat.le_max_left _ _)
  have hheap := scan_heap U st (q := q) (p := ⟨[], 0, 0⟩)
    (liveRecords st.fileSlab q.wantMedia) List.Pairwise.nil (Nat.zero_le _)
    (by simpa using hn) (by simpa using hscan)
  rw [foldl_keepBest_nil] at hheap
  simp [handleSearch, searchByHash, hs, hk, ← hq, hheap, bestMatches]

/-- A search without lookup groups is answered with the best matches exactly when no term has a
key and the rewriting leaves the matches alone, or when nothing matches. -/
theorem scan_answers_iff {tree : SearchNode} (hinv : SlabInv st.fileSlab)
    (hlive : liveNumber st.fileSlab ≤ min MAX_UNINDEXED_SCAN st.limits.searchRankScan.toNat)
    (hg : candidateGroups U tree = []) :
    handleSearch U st tree = some (bestMatches U st tree) ↔
      match ed2kFileSearch U tree with
      | some (hash, size) => (bestMatches U st tree).length ≤ 1 ∧
          ∀ r, r ∈ bestMatches U st tree ↔ NamedFile st hash size r
      | none =>
        if keyTokens U (rewritten U st tree) = [] then
          bestMatches U st (rewritten U st tree) = bestMatches U st tree
        else bestMatches U st tree = [] := by
  cases hs : ed2kFileSearch U tree with
  | some p => exact handleSearch_hash hinv hs _
  | none =>
    simp only
    split
    · rename_i hk
      rw [handleSearch_scan hs hlive hk, Option.some.injEq]
    · rename_i hk
      rw [handleSearch_keyed hs hg hk, Option.some.injEq, eq_comm]

/-- A server with one sourced film. -/
def film : FileRecord :=
  .new (.replicate 16 0) 700 "movie 1080p.avi".toList [⟨.replicate 16 1, 1, 4662, true⟩]

def filmSlab : Option FileSlab :=
  ((FileSlab.new SLOT_QUARANTINE_SECS).searchOrInsert 0 film).map (·.1)

def filmServer : Server where
  fileSlab := filmSlab.getD (.new SLOT_QUARANTINE_SECS)
  keywordIndex := (KeywordIndex.withSubtokens false).addFile basicLatin 0 film.name
  codecs := ⟨fun _ => none⟩
  isWithheld := fun _ _ => false
  querySeed := fun _ => 0
  limits := ⟨200, 10000, true⟩

theorem filmServer_inv : SlabInv filmServer.fileSlab := by
  obtain ⟨s, id, hrun, hs, -⟩ := new_searchOrInsert SLOT_QUARANTINE_SECS 0 (r := film) rfl
  have hfilm : filmServer.fileSlab = s := by simp [filmServer, filmSlab, hrun]
  rwa [hfilm]

def filmType : SearchNode := .metaTag (.id 0x03) "Video".toList

theorem filmType_answered :
    handleSearch basicLatin filmServer filmType =
        some (bestMatches basicLatin filmServer filmType) ↔
      match ed2kFileSearch basicLatin filmType with
      | some (hash, size) => (bestMatches basicLatin filmServer filmType).length ≤ 1 ∧
          ∀ r, r ∈ bestMatches basicLatin filmServer filmType ↔
            NamedFile filmServer hash size r
      | none =>
        if keyTokens basicLatin (rewritten basicLatin filmServer filmType) = [] then
          bestMatches basicLatin filmServer (rewritten basicLatin filmServer filmType) =
            bestMatches basicLatin filmServer filmType
        else bestMatches basicLatin filmServer filmType = [] :=
  scan_answers_iff filmServer_inv (by decide) (by decide)

/-- `1080*` is looked up under no key, but it has one, and so no file is found. -/
theorem starred_word_finds_nothing :
    candidateGroups basicLatin (.term "1080*".toList) = [] ∧
      liveNumber filmServer.fileSlab = 1 ∧
      handleSearch basicLatin filmServer (.term "1080*".toList) = some [] ∧
      bestMatches basicLatin filmServer (.term "1080*".toList) = [film] := by
  decide

end Ed2kServer.Search.Scan
