import Ed2kServer.Text.Chars

namespace Ed2kServer.Search.Tree

open Ed2kServer.Text.Chars

inductive BoolOp
  | and
  | or
  /-- Left and not right. -/
  | not
  deriving DecidableEq

inductive CmpOp
  | eq
  | gt
  | lt
  | ge
  | le
  | ne
  deriving DecidableEq

def CmpOp.matchesU64 (op : CmpOp) (value threshold : UInt64) : Bool :=
  match op with
  | .eq => value == threshold
  | .ne => value != threshold
  | .gt => threshold < value
  | .lt => value < threshold
  | .ge => threshold ≤ value
  | .le => value ≤ threshold

/-- The tag of a meta or numeric node: an id of one byte, or a name. -/
inductive SearchTag
  | id (id : UInt8)
  | name (name : Str)
  deriving DecidableEq

def SearchTag.is (tag : SearchTag) (id : UInt8) (names : List String) : Bool :=
  match tag with
  | .id i => i == id
  | .name n => names.any (fun x => toAsciiLowercase n == toAsciiLowercase x.toList)

inductive SearchNode
  | bool (op : BoolOp) (l r : SearchNode)
  | term (s : Str)
  | metaTag (tagName : SearchTag) (value : Str)
  | numeric (tagName : SearchTag) (op : CmpOp) (value : UInt64)
  deriving DecidableEq

/-- A word without its markers: `^` anchors it, `*` at either end stars it. -/
structure Markers where
  core : Str
  anchored : Bool
  starred : Bool

def parseMarkers (t : Str) : Markers :=
  let s := t.dropWhile (· == '*')
  let p : Str × Bool := match s with
    | '^' :: rest => (rest, true)
    | _ => (s, false)
  let core := (p.1.reverse.dropWhile (· == '*')).reverse
  ⟨core, p.2, s.length < t.length || core.length < p.1.length⟩

/-- The texts of all string leaves. -/
def SearchNode.terms : SearchNode → List Str
  | .bool _ l r => l.terms ++ r.terms
  | .term s => [s]
  | .metaTag .. | .numeric .. => []

end Ed2kServer.Search.Tree
