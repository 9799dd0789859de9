import Ed2kServer.Keyword.Lookup
import Ed2kServer.Lib.Transition

namespace Ed2kServer.Keyword.Compact

open Ed2kServer.Lib Ed2kServer.Text.Chars
open Ed2kServer.Keyword.Cold Ed2kServer.Keyword.PostingCodec Ed2kServer.Keyword.MergeTiers
open Ed2kServer.Keyword.Index

/-- The deferred sets of one keyword as a compaction found them. -/
structure Snap where
  th : TokenHash
  hv : List FileId
  pend : List FileId

/-- The posting list a snapshot folds into the cold tier. -/
def mergedOf (ix : KeywordIndex) (snap : Snap) : List FileId :=
  mergeTiers (((ix.cold.get snap.th).bind decode).getD []) snap.hv snap.pend

/-- The batch entry of a snapshot: a keyword whose posting became empty is removed. -/
def updateOf (ix : KeywordIndex) (snap : Snap) : TokenHash × Option (List UInt8) :=
  (snap.th, if mergedOf ix snap = [] then none else some (encode (mergedOf ix snap)))

def snaps (ix : KeywordIndex) (keys : List TokenHash) : List Snap :=
  (keys.map (fun th => ⟨th, (ix.hot th).getD [], (ix.pendingRemovals th).getD []⟩)).filter
    (fun snap => ¬ (snap.hv = [] ∧ snap.pend = []))

/-- A compaction of one shard between its snapshot and its commit. -/
structure Compaction where
  shard : Fin SHARDS
  updates : List (TokenHash × Option (List UInt8))
  snaps : List Snap

/-- The snapshot half of `compact_shard`. -/
def snapshot (ix : KeywordIndex) (keys : List TokenHash) : Option Compaction :=
  if (snaps ix keys).map (updateOf ix) = [] then none
  else some ⟨shardOf (keys.headD 0), (snaps ix keys).map (updateOf ix), snaps ix keys⟩

/-- Ids of the snapshot that left the hot tier since. -/
def Snap.gone (snap : Snap) (hot : Option (List FileId)) : List FileId :=
  match hot with
  | some h => snap.hv.filter (fun id => !Ascending.contains h id)
  | none => snap.hv

def Snap.trimHot (snap : Snap) (hot : Option (List FileId)) : Option (List FileId) :=
  if snap.hv = [] then hot else hot.map (·.filter (fun id => !Ascending.contains snap.hv id))

def Snap.trimPending (snap : Snap) (hot pending : Option (List FileId)) :
    Option (List FileId) :=
  let kept := if snap.pend = [] then pending
    else pending.map (·.filter (fun id => !Ascending.contains snap.pend id))
  if snap.hv = [] then kept
  else if snap.gone hot = [] then kept
  else some ((snap.gone hot).foldl Ascending.insertSorted (kept.getD []))

/-- What the installed hook does for one snapshot. -/
def subtract (ix : KeywordIndex) (snap : Snap) : KeywordIndex :=
  { ix with
    hot := Function.update ix.hot snap.th (snap.trimHot (ix.hot snap.th))
    pendingRemovals := Function.update ix.pendingRemovals snap.th
      (snap.trimPending (ix.hot snap.th) (ix.pendingRemovals snap.th)) }

/-- The commit half of `compact_shard`; the second result counts the keywords removed. -/
def commit (ix : KeywordIndex) (c : Compaction) : KeywordIndex × Nat :=
  (c.snaps.foldl subtract { ix with cold := (ix.cold.rebuild c.shard c.updates).1 },
    (ix.cold.rebuild c.shard c.updates).2)

def dropEmpty (tier : Tier) (th : TokenHash) : Tier :=
  if tier th = some [] then Function.update tier th none else tier

inductive Op
  | add
  | remove
  deriving DecidableEq

/-- One token of a call of `add_file` or `remove_file`. -/
structure TokenOp where
  op : Op
  id : FileId
  th : TokenHash
  deriving DecidableEq

def perform (ix : KeywordIndex) (o : TokenOp) : KeywordIndex :=
  match o.op with
  | .add => ix.addToken o.id o.th
  | .remove => ix.removeToken o.id o.th

/-- Threads with the tokens their calls have still to visit, and at most one compaction. -/
structure State where
  index : KeywordIndex
  calls : Nat → List TokenOp
  compaction : Option Compaction

def State.init (subtokens : Bool) : State := ⟨.withSubtokens subtokens, fun _ => [], none⟩

inductive Event
  | call (thread : Nat) (op : Op) (id : FileId) (filename : Str)
  | token (thread : Nat)
  | snapshot (keys : List TokenHash)
  | commit
  | dropHot (th : TokenHash)
  | dropPending (th : TokenHash)

variable (U : Unicode)

def step (s : State) : Event → Option State
  | .call t op id filename =>
    if s.calls t = [] then
      let tokens := (s.index.tokenHashes U filename).map (fun th => ⟨op, id, th⟩)
      some { s with calls := Function.update s.calls t tokens }
    else none
  | .token t =>
    match s.calls t with
    | [] => none
    | o :: rest =>
      some { s with index := perform s.index o, calls := Function.update s.calls t rest }
  | .snapshot keys =>
    if s.compaction.isNone ∧ keys.SortedLT ∧
        keys.all (fun th => shardOf th == shardOf (keys.headD 0)) then
      some { s with compaction := snapshot s.index keys }
    else none
  | .commit =>
    match s.compaction with
    | none => none
    | some c => some { s with index := (commit s.index c).1, compaction := none }
  | .dropHot th => some { s with index := { s.index with hot := dropEmpty s.index.hot th } }
  | .dropPending th =>
    some { s with
      index := { s.index with pendingRemovals := dropEmpty s.index.pendingRemovals th } }

end Ed2kServer.Keyword.Compact
