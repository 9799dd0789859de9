import Ed2kServer.Search.Tree
import Ed2kServer.Slab.Record

namespace Ed2kServer.Search.HashRef

open Ed2kServer.Text.Chars Ed2kServer.Search.Tree Ed2kServer.Slab.Record

/-- `eq_ignore_ascii_case` on a prefix, which is stripped. -/
def stripPrefixIgnoreCase (s : Str) (p : String) : Option Str :=
  if toAsciiLowercase (s.take p.length) = toAsciiLowercase p.toList then some (s.drop p.length)
  else none

/-- The number at the front, 0 when it does not fit, and what follows. -/
def digits (t : Str) : UInt64 × Str :=
  let ds := t.takeWhile Char.isDigit
  let n := ds.foldl (fun n c => n * 10 + (c.toNat - '0'.toNat)) 0
  (if n < 2 ^ 64 then UInt64.ofNat n else 0, t.dropWhile Char.isDigit)

/-- `str::split_once` on a bar: what follows it. -/
def afterBar (s : Str) : Option Str :=
  match s.dropWhile (· ≠ '|') with
  | _ :: rest => some rest
  | [] => none

/-- `NAME|SIZE|HASH` after the `ed2k://|file|` part. -/
def link (rest : Str) : Option (Str × UInt64) := do
  let afterName ← afterBar rest
  let (size, rest) := digits afterName
  let hash ← afterBar rest
  return (hash, size)

def hexValue (c : Char) : Option Nat :=
  if c.isDigit then some (c.toNat - '0'.toNat)
  else if 'a' ≤ c.toLower ∧ c.toLower ≤ 'f' then some (c.toLower.toNat - 'a'.toNat + 10)
  else none

/-- `u8::from_str_radix(.., 16)` of two characters; a plus may stand in front. -/
def hexByte (a b : Char) : Option UInt8 := do
  let lo ← hexValue b
  if a = '+' then return UInt8.ofNat lo
  let hi ← hexValue a
  return UInt8.ofNat (hi * 16 + lo)

def hexBytes : Str → Option (List UInt8)
  | a :: b :: rest => do
    let x ← hexByte a b
    let xs ← hexBytes rest
    return x :: xs
  | [] => some []
  | [_] => none

def hexHash (hash : Str) : Option FileHash := do
  let bytes ← hexBytes (hash.take 32)
  if h : bytes.length = 16 then return ⟨bytes.toArray, by simpa using h⟩ else none

/-- A string that names one file by its hash: the hash and the size, 0 when not given. -/
def ed2kFileRef (U : Unicode) (s : Str) : Option (FileHash × UInt64) := do
  let s := U.trim s
  let (hash, size) ←
    match stripPrefixIgnoreCase s "ed2k://|file|" with
    | some rest => link rest
    | none =>
    match stripPrefixIgnoreCase s "<a href= ed2k://|file|" with
    | some rest => link rest
    | none =>
    match stripPrefixIgnoreCase s "magnet:?xt=urn:ed2khash:" with
    | some rest => some (rest, 0)
    | none =>
    match stripPrefixIgnoreCase s "magnet:?xt=urn:ed2k:" with
    | some rest => some (rest, 0)
    | none =>
    match stripPrefixIgnoreCase s "ed2k:" with
    | some rest =>
      match digits rest with
      | (size, ':' :: hash) => some (hash, size)
      | _ => none
    | none => none
  let h ← hexHash hash
  return (h, size)

/-- The whole tree is one such string. -/
def ed2kFileSearch (U : Unicode) : SearchNode → Option (FileHash × UInt64)
  | .term s => ed2kFileRef U s
  | _ => none

end Ed2kServer.Search.HashRef
