import Ed2kServer.Search.Scan

namespace Ed2kServer.Search.UdpSearch

open Ed2kServer.Lib.TopN
open Ed2kServer.Text.Chars Ed2kServer.Keyword.Tokenizer Ed2kServer.Keyword.Index
open Ed2kServer.Keyword.MergeTiers
open Ed2kServer.Slab.Record Ed2kServer.Slab.Store
open Ed2kServer.Search.Tree Ed2kServer.Search.Evaluate Ed2kServer.Search.Groups
open Ed2kServer.Search.HashRef Ed2kServer.Search.Handle Ed2kServer.Search.Scan

def UDP_MAX_SEARCH_RESULTS : Nat := 10

variable (U : Unicode) (st : Server)

/-- The same query with the budget and the cap of the UDP path. -/
def udpQuery (tree : SearchNode) (groups : List (List Str)) : Query where
  prepared := preparedTree U st tree
  seed := st.querySeed groups
  maxResults := UDP_MAX_SEARCH_RESULTS
  rankScan := max st.limits.searchRankScan.toNat UDP_MAX_SEARCH_RESULTS

/-- What the test of one candidate hands to the heap. -/
def Query.udpPush (q : Query) (heap : List Ranked) (c : Candidate) : Option Ranked :=
  if c.entry.sources = [] then none
  else if !q.accepts U c then none
  else
    let r := q.ranked c
    let noBetter := heap.getLast?.any (fun worst => decide (rankKey r ≤ rankKey worst))
    if q.maxResults ≤ heap.length ∧ noBetter then none
    else if st.isWithheld c.entry.hash c.entry.name then none
    else some r

/-- The walk over the candidates; here a dead id counts as examined. -/
def Query.udpLookUp (q : Query) (examined : Nat) (heap : List Ranked) :
    List FileId → List Ranked
  | [] => heap
  | id :: ids =>
    if q.rankScan ≤ examined then heap
    else
      match (withRecordMedia st.fileSlab id q.wantMedia).bind (Query.udpPush U st q heap) with
      | some r =>
        let pushed := insertRanked rankKey r heap
        let heap := if q.maxResults < pushed.length then pushed.dropLast else pushed
        udpLookUp q (examined + 1) heap ids
      | none => udpLookUp q (examined + 1) heap ids

def udpSearchRanked (tree : SearchNode) : Option (List FileRecord) := do
  match ← searchByHash U st tree with
  | some found => return found
  | none =>
    let tree := rewritten U st tree
    if keyTokens U tree = [] then return []
    else
      let groups := candidateGroups U tree
      let q := udpQuery U st tree groups
      let ids := st.keywordIndex.findGroupedCapped groups (q.rankScan * 2 + 1)
      return (Query.udpLookUp U st q 0 [] ids).map (·.record)

end Ed2kServer.Search.UdpSearch
