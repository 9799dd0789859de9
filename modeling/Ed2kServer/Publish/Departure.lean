import Ed2kServer.Publish.Files

namespace Ed2kServer.Publish.Departure

open Ed2kServer.Text.Chars Ed2kServer.Keyword.Index
open Ed2kServer.Slab.Record Ed2kServer.Slab.Store Ed2kServer.Slab.Sources
open Ed2kServer.Publish.Files

variable (U : Unicode)

/-- A tombstone that succeeds takes the keywords along. -/
def evictWhere (f : FileStore) (now : UInt32) (id : FileId)
    (cond : FileRecord → Bool) : Option (FileStore × Bool) := do
  let (slab, name) ← f.fileSlab.tombstoneWhere now id cond
  match name with
  | none => return ({ f with fileSlab := slab }, false)
  | some name =>
    let index := f.keywordIndex.removeFile U id name
    return ({ f with fileSlab := slab, keywordIndex := index }, true)

/-- The user leaves one file, which is evicted if nobody else sources it. -/
def dropSource (f : FileStore) (user : UserHash) (id : FileId) (now : UInt32) :
    Option FileStore := do
  let (slab, sourceless) := removeUserSource f.fileSlab id user
  let left := { f with fileSlab := slab }
  if sourceless then
    let (evicted, _) ← evictWhere U left now id (·.sources.isEmpty)
    return evicted
  else return left

/-- The files of a set come in any order, each with the second at its turn. -/
def removeSourcesOf (f : FileStore) (user : UserHash)
    (order : List (FileId × UInt32)) : Option FileStore :=
  match f.userFiles user with
  | none => some f
  | some ids =>
    if (order.map Prod.fst).Nodup ∧ (order.map Prod.fst).toFinset = ids then
      order.foldlM (fun f e => dropSource U f user e.1 e.2)
        { f with userFiles := Function.update f.userFiles user none }
    else none

/-- Users left without a file lose their entry. -/
def purgeIdsFromUserFiles (f : FileStore) (ids : List FileId) : FileStore :=
  if ids = [] then f
  else
    let userFiles := fun user => ((f.userFiles user).map (· \ ids.toFinset)).filter (· ≠ ∅)
    { f with userFiles := userFiles }

/-- Evict what is met, in order; the ids evicted come second. -/
def evictAll (cond : FileRecord → Bool) :
    List (FileId × UInt32) → FileStore → Option (FileStore × List FileId)
  | [], f => some (f, [])
  | (id, now) :: rest, f => do
    let (f, gone) ← evictWhere U f now id cond
    let (f, ids) ← evictAll cond rest f
    return (f, if gone then id :: ids else ids)

/-- Files the content filter now refuses, whatever their sources. -/
def purgeFiles (f : FileStore) (ids : List (FileId × UInt32)) : Option FileStore := do
  let (f, _) ← evictAll U (fun _ => true) ids f
  return purgeIdsFromUserFiles f (ids.map Prod.fst)

/-- Files found without a source, each checked again at its turn. -/
def orphanSweep (f : FileStore) (found : List (FileId × UInt32)) :
    Option FileStore := do
  let (f, evicted) ← evictAll U (·.sources.isEmpty) found f
  return purgeIdsFromUserFiles f evicted

end Ed2kServer.Publish.Departure
