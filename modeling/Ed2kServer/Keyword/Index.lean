import Ed2kServer.Keyword.Cold
import Ed2kServer.Keyword.MergeTiers
import Ed2kServer.Keyword.Tokenizer

namespace Ed2kServer.Keyword.Index

open Ed2kServer.Lib Ed2kServer.Text.Chars
open Ed2kServer.Keyword.Cold Ed2kServer.Keyword.PostingCodec Ed2kServer.Keyword.MergeTiers
open Ed2kServer.Keyword.Tokenizer

/-- A concurrent map from token hashes to ascending posting lists. -/
abbrev Tier := TokenHash → Option (List FileId)

/-- The compressed tier, and the additions and deletions not merged into it yet. -/
structure KeywordIndex where
  cold : ColdStore
  hot : Tier
  pendingRemovals : Tier
  subtokens : Bool

def KeywordIndex.withSubtokens (subtokens : Bool) : KeywordIndex :=
  ⟨.empty, fun _ => none, fun _ => none, subtokens⟩

/-- One token of `add_file`: into the hot tier, off the pending deletions. -/
def KeywordIndex.addToken (ix : KeywordIndex) (id : FileId) (th : TokenHash) : KeywordIndex :=
  { ix with
    hot := Function.update ix.hot th (some (Ascending.insertSorted ((ix.hot th).getD []) id))
    pendingRemovals := Function.update ix.pendingRemovals th
      ((ix.pendingRemovals th).map (Ascending.removeSorted · id)) }

/-- One token of `remove_file`: out of the hot tier, and marked when there is a cold blob. -/
def KeywordIndex.removeToken (ix : KeywordIndex) (id : FileId) (th : TokenHash) : KeywordIndex :=
  { ix with
    hot := Function.update ix.hot th ((ix.hot th).map (Ascending.removeSorted · id))
    pendingRemovals :=
      if ix.cold.containsKey th then
        Function.update ix.pendingRemovals th
          (some (Ascending.insertSorted ((ix.pendingRemovals th).getD []) id))
      else ix.pendingRemovals }

/-- The keys `add_file` and `remove_file` visit for a name, in order. -/
def KeywordIndex.tokenHashes (U : Unicode) (ix : KeywordIndex) (filename : Str) :
    List TokenHash := (indexTokensInto U filename ix.subtokens).map tokenHash

def KeywordIndex.addFile (U : Unicode) (ix : KeywordIndex) (id : FileId) (filename : Str) :
    KeywordIndex := (ix.tokenHashes U filename).foldl (fun ix th => ix.addToken id th) ix

def KeywordIndex.removeFile (U : Unicode) (ix : KeywordIndex) (id : FileId) (filename : Str) :
    KeywordIndex := (ix.tokenHashes U filename).foldl (fun ix th => ix.removeToken id th) ix

/-- `usize::MAX`. -/
def USIZE_MAX : Nat := 2 ^ 64 - 1

def KeywordIndex.mergeTiersLocked (ix : KeywordIndex) (th : TokenHash) (cap : Nat) :
    Option (List FileId) :=
  if ix.cold.get th = none ∧ ix.hot th = none then none
  else some (mergeCursor ((ix.pendingRemovals th).getD []) cap
    ((ix.cold.get th).bind PostingCursor.new) ((ix.hot th).getD []))

def KeywordIndex.materialize (ix : KeywordIndex) (th : TokenHash) : Option (List FileId) :=
  ix.mergeTiersLocked th USIZE_MAX

def KeywordIndex.materializePrefix (ix : KeywordIndex) (th : TokenHash) (cap : Nat) :
    List FileId := (ix.mergeTiersLocked th cap).getD []

def KeywordIndex.containsToken (ix : KeywordIndex) (token : Str) : Bool :=
  (match ix.hot (tokenHash token) with
    | some v => v ≠ []
    | none => false) || ix.cold.containsKey (tokenHash token)

/-- The posting length over both tiers, a guide to the rarest word only. -/
def KeywordIndex.approxLen (ix : KeywordIndex) (th : TokenHash) : Nat :=
  ((ix.cold.get th).bind decodedLen).getD 0 + ((ix.hot th).getD []).length -
    ((ix.pendingRemovals th).getD []).length

def KeywordIndex.unionOf (ix : KeywordIndex) (tokens : List Str) : List FileId :=
  tokens.flatMap (fun t => (ix.materialize (tokenHash t)).getD [])

/-- Keep of an ascending list what one more token has, its blob read forward alongside. -/
def retainToken (cur : Option PostingCursor) (pend : Option (List FileId))
    (hot : Option (List FileId)) : List FileId → List FileId
  | [] => []
  | fh :: rest =>
    let inCold := cur.elim false (fun c => (c.contains fh).1)
    let cur := cur.map (fun c => (c.contains fh).2)
    let deleted := pend.elim false (Ascending.contains · fh)
    if (inCold && !deleted) || hot.elim false (Ascending.contains · fh) then
      fh :: retainToken cur pend hot rest
    else retainToken cur pend hot rest

def KeywordIndex.intersectRest (ix : KeywordIndex) (result : List FileId) :
    List TokenHash → List FileId
  | [] => result
  | h :: hashes =>
    if ix.cold.get h = none ∧ ix.hot h = none then []
    else
      let result := retainToken ((ix.cold.get h).bind PostingCursor.new)
        (ix.pendingRemovals h) (ix.hot h) result
      if result = [] then [] else ix.intersectRest result hashes

/-- The position of the hash with the shortest posting; an empty one counts as the longest. -/
def KeywordIndex.seedIndex (ix : KeywordIndex) (hashes : List TokenHash) : Nat :=
  let key := fun h => if ix.approxLen h = 0 then USIZE_MAX else ix.approxLen h
  hashes.findIdx (fun h => hashes.all (fun g => key h ≤ key g))

def KeywordIndex.findIntersection (ix : KeywordIndex) (tokens : List Str) : List FileId :=
  if tokens = [] then [] else
  let hashes := tokens.map tokenHash
  let seed := ix.seedIndex hashes
  match ix.materialize (hashes.getD seed 0) with
  | some v => if v = [] then [] else ix.intersectRest v (hashes.eraseIdx seed)
  | none => []

/-- `find_intersection`, had the token at position `seed` been chosen. -/
def KeywordIndex.intersectFrom (ix : KeywordIndex) (tokens : List Str) (seed : Nat) : List FileId :=
  let hashes := tokens.map tokenHash
  match ix.materialize (hashes.getD seed 0) with
  | some v => if v = [] then [] else ix.intersectRest v (hashes.eraseIdx seed)
  | none => []

/-- `sort_unstable` and `dedup`. -/
def sortDedup (v : List FileId) : List FileId := v.mergeSort.dedup

/-- The groups of several words, each a union, cut out of the result so far. -/
def KeywordIndex.retainGroups (ix : KeywordIndex) (result : List FileId) :
    List (List Str) → List FileId
  | [] => result
  | g :: groups =>
    let u := sortDedup (ix.unionOf g)
    if u = [] then []
    else
      let result := result.filter (Ascending.contains u)
      if result = [] then [] else ix.retainGroups result groups

/-- Candidates of a grouped query: the groups intersected, a union within each. -/
def KeywordIndex.findGrouped (ix : KeywordIndex) (groups : List (List Str)) : List FileId :=
  if groups = [] then [] else
  let singles := (groups.filter (·.length = 1)).map (·.headD [])
  let multis := groups.filter (1 < ·.length)
  match multis with
  | [] => ix.findIntersection singles
  | g :: rest =>
    if singles = [] then
      let result := sortDedup (ix.unionOf g)
      if result = [] then [] else ix.retainGroups result rest
    else
      let result := ix.findIntersection singles
      if result = [] then [] else ix.retainGroups result (g :: rest)

/-- A query of one plain word is cut to its first `cap` ids. -/
def KeywordIndex.findGroupedCapped (ix : KeywordIndex) (groups : List (List Str)) (cap : Nat) :
    List FileId :=
  match groups with
  | [[t]] => ix.materializePrefix (tokenHash t) cap
  | _ => ix.findGrouped groups

end Ed2kServer.Keyword.Index
