import Ed2kServer.Keyword.Index
import Ed2kServer.Lib.TopN
import Ed2kServer.Search.Evaluate
import Ed2kServer.Search.HashRef
import Ed2kServer.Search.Unknown
import Ed2kServer.Slab.Store

namespace Ed2kServer.Search.Handle

open Ed2kServer.Lib.TopN
open Ed2kServer.Text.Chars Ed2kServer.Keyword.Tokenizer Ed2kServer.Keyword.Index
open Ed2kServer.Slab.Record Ed2kServer.Slab.Store Ed2kServer.Slab.MediaFields
open Ed2kServer.Search.Tree Ed2kServer.Search.Evaluate Ed2kServer.Search.Groups
open Ed2kServer.Search.HashRef Ed2kServer.Search.Unknown

structure Limits where
  maxSearchResults : UInt32
  searchRankScan : UInt32
  searchDropUnknownWords : Bool

/-- What a search reads of the server. -/
structure Server where
  fileSlab : FileSlab
  keywordIndex : KeywordIndex
  codecs : CodecTable
  isWithheld : FileHash → Str → Bool
  /-- A keyed hash of the query's groups; the keys are drawn once. -/
  querySeed : List (List Str) → UInt64
  limits : Limits

def MAX_UNINDEXED_SCAN : Nat := 50000

structure Ranked where
  sources : UInt32
  tie : UInt64
  id : FileId
  record : FileRecord

/-- Greater is better: the source count, then the tie key, then the lower id. -/
def rankKey (r : Ranked) : Nat ×ₗ Nat ×ₗ Natᵒᵈ :=
  toLex (r.sources.toNat, toLex (r.tie.toNat, OrderDual.toDual r.id.toNat))

/-- Splitmix64 of the hash's first eight bytes mixed with the query's seed. -/
def tieKey (seed : UInt64) (hash : FileHash) : UInt64 :=
  let z := (hashU64 hash ^^^ seed) + 0x9E3779B97F4A7C15
  let z := (z ^^^ (z >>> 30)) * 0xBF58476D1CE4E5B9
  let z := (z ^^^ (z >>> 27)) * 0x94D049BB133111EB
  z ^^^ (z >>> 31)

/-- A live record as the walks hand it over. -/
structure Candidate where
  id : FileId
  entry : FileRecord
  media : Option Media

def completeSourceCount (r : FileRecord) : UInt32 := UInt32.ofNat (r.sources.countP (·.complete))

def fileFacts (entry : FileRecord) (wantComplete : Bool) (media : Option Media) : FileFacts where
  size := entry.size
  sources := some (UInt32.ofNat entry.sources.length)
  completeSources := if wantComplete then some (completeSourceCount entry) else none
  media := media

/-- The record of an id, with its media fields when they are wanted. -/
def withRecordMedia (s : FileSlab) (id : FileId) (want : Bool) : Option Candidate :=
  (s.get id).map (fun r =>
    ⟨id, r, if want then (s.shards (idShard id)).media (idIndex id) else none⟩)

/-- All live records, shard after shard. -/
def liveRecords (s : FileSlab) (want : Bool) : List Candidate :=
  (List.finRange SLAB_SHARDS).flatMap (fun no =>
    (s.shards no).records.zipIdx.filterMap (fun (r, i) =>
      if r.alive then
        let media := if want then (s.shards no).media (UInt32.ofNat i) else none
        some ⟨makeId no (UInt32.ofNat i), r, media⟩
      else none))

def getByHash (s : FileSlab) (hash : FileHash) : Option (Option FileRecord) := do
  let id ← s.idOf hash
  return id.bind s.get

variable (U : Unicode) (st : Server)

/-- The inner `none`: the search is not one by hash. -/
def searchByHash (tree : SearchNode) : Option (Option (List FileRecord)) :=
  match ed2kFileSearch U tree with
  | none => some none
  | some (hash, size) => do
    let found ← getByHash st.fileSlab hash
    return some ((found.filter (fun r => r.sources ≠ [] && (size == 0 || r.size == size) &&
      !st.isWithheld r.hash r.name)).toList)

def preparedTree (tree : SearchNode) : SearchNode :=
  resolveCodecs (st.codecs.lookup U) (prepare U tree)

/-- What one search computes before it walks its candidates. -/
structure Query where
  prepared : SearchNode
  seed : UInt64
  maxResults : Nat
  rankScan : Nat

def Query.wantComplete (q : Query) : Bool := usesCompleteSources q.prepared

def Query.wantMedia (q : Query) : Bool := usesMedia q.prepared

def query (tree : SearchNode) (groups : List (List Str)) : Query where
  prepared := preparedTree U st tree
  seed := st.querySeed groups
  maxResults := st.limits.maxSearchResults.toNat
  rankScan := max st.limits.searchRankScan.toNat st.limits.maxSearchResults.toNat

/-- The heap, best first, and the work done. -/
structure Progress where
  heap : List Ranked
  nCandidates : Nat
  scanned : Nat

def Query.ranked (q : Query) (c : Candidate) : Ranked :=
  ⟨UInt32.ofNat c.entry.sources.length, tieKey q.seed c.entry.hash, c.id, c.entry⟩

def Query.accepts (q : Query) (c : Candidate) : Bool :=
  evaluatePrepared U q.prepared (foldForMatch U c.entry.name)
    (fileFacts c.entry q.wantComplete (if q.wantMedia then some (c.media.getD 0) else none))

/-- A full heap takes only what is better than its worst. -/
def Query.offer (q : Query) (heap : List Ranked) (c : Candidate) : List Ranked :=
  let r := q.ranked c
  let keep := match heap.getLast? with
    | some worst => heap.length < q.maxResults || rankKey worst < rankKey r
    | none => true
  if keep && !st.isWithheld c.entry.hash c.entry.name then
    let pushed := insertRanked rankKey r heap
    if q.maxResults < pushed.length then pushed.dropLast else pushed
  else heap

/-- Test one candidate; `false` once the budget is spent. -/
def Query.consider (q : Query) (c : Candidate) (p : Progress) : Progress × Bool :=
  let p := { p with scanned := p.scanned + 1 }
  if c.entry.sources = [] then (p, true)
  else
    let heap := if q.accepts U c then q.offer st p.heap c else p.heap
    ({ p with heap := heap }, p.scanned < q.rankScan)

/-- The keyword path: a dead id is skipped. -/
def Query.lookUp (q : Query) (p : Progress) : List FileId → Progress
  | [] => p
  | id :: ids =>
    match withRecordMedia st.fileSlab id q.wantMedia with
    | none => q.lookUp p ids
    | some c =>
      let (p, goOn) := q.consider U st c p
      if goOn then q.lookUp p ids else p

/-- The path without a keyword. -/
def Query.scan (q : Query) (p : Progress) : List Candidate → Progress
  | [] => p
  | c :: cs =>
    if MAX_UNINDEXED_SCAN ≤ p.nCandidates then p
    else
      let (p, goOn) := q.consider U st c { p with nCandidates := p.nCandidates + 1 }
      if goOn then q.scan p cs else p

/-- The tree all later stages use. -/
def rewritten (tree : SearchNode) : SearchNode :=
  if st.limits.searchDropUnknownWords then
    (dropUnknownWords U st.keywordIndex.containsToken tree).1
  else tree

/-- The keys of all terms outside negation, starred or not. -/
def keyTokens (tree : SearchNode) : List Str := (collectTerms tree).flatMap (searchTokens U)

/-- The records found, best first; `none` when the walk of a hash chain does not end. -/
def handleSearch (tree : SearchNode) : Option (List FileRecord) := do
  match ← searchByHash U st tree with
  | some found => return found
  | none =>
    let tree := rewritten U st tree
    let groups := candidateGroups U tree
    let q := query U st tree groups
    let start : Progress := ⟨[], 0, 0⟩
    let p :=
      if keyTokens U tree ≠ [] then
        q.lookUp U st start (st.keywordIndex.findGroupedCapped groups (q.rankScan * 2 + 1))
      else q.scan U st start (liveRecords st.fileSlab q.wantMedia)
    return p.heap.map (·.record)

end Ed2kServer.Search.Handle
