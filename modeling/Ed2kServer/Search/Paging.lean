import Ed2kServer.Search.ResultRuns

namespace Ed2kServer.Search.Paging

open Ed2kServer.Lib.LittleEndian Ed2kServer.Lib.Transition
open Ed2kServer.Text.Chars Ed2kServer.Text.Utf8
open Ed2kServer.Keyword.Index Ed2kServer.Slab.Record Ed2kServer.Sources.Address
open Ed2kServer.Publish.StoredNames
open Ed2kServer.Search.ResultPage Ed2kServer.Search.ResultRuns

/-- What a request finds of the server: what a page reads, and the configured page size. -/
structure Moment where
  view : ResultPage.Server
  maxSearchResults : UInt32
  codecs_short : ∀ c ∈ view.codecs.names, Short c

inductive Request
  /-- What the search found, nothing without a permit; `none` when the request cannot be read. -/
  | search (found : Option (List FileRecord))
  | more

/-- A moment of a running server. -/
def Moment.ofRun {U : Unicode} {quarantineSecs : UInt32} {subtokens : Bool} {es : List Event}
    {s : Publish.OfferFiles.Server}
    (hrun : exec (step U) (boot quarantineSecs subtokens) es = some s)
    (clients : UserHash → Option ConnectedSource) (maxSearchResults : UInt32) : Moment :=
  ⟨pageView s clients, maxSearchResults, ResultRuns.codecs_short hrun⟩

variable (U : Unicode)

/-- The hashes a client reads off the frames. -/
def hashes (frames : List (Moment × List UInt8)) : List (List UInt8) :=
  frames.flatMap fun f => (readPage f.2).1.map (·.hash)

def hashesOf (files : List FileRecord) : List (List UInt8) := files.map (·.hash.toList)

variable {U} {c s t : Connection} {m : Moment} {all : List FileRecord}
  {frames : List (Moment × List UInt8)}

def start : Moment := .ofRun (exec_nil (step basicLatin) (boot 0 false)) (fun _ => none) 1

def stored (name : String) : FileRecord := .new (Vector.replicate 16 0) 1 name.toList []

end Ed2kServer.Search.Paging
