import Ed2kServer.Lib.Assoc
import Ed2kServer.Lib.LittleEndian
import Ed2kServer.Slab.Record
import Ed2kServer.Text.Cut

namespace Ed2kServer.Publish.NameDb

open Ed2kServer.Lib.Assoc Ed2kServer.Lib.LittleEndian Ed2kServer.Slab.Record
open Ed2kServer.Text.Cut

def MAX_NAME : Nat := 1024

/-- One offered record, with the filter's verdict on it. -/
structure NameEvent where
  hash : FileHash
  size : UInt64
  name : Str
  layer : UInt8
  rule : Option Str
  whitelisted : Bool
  userHash : UserHash
  net : UInt64

/-- A file's hash and the key of a name. -/
structure Key where
  hash : FileHash
  nkey : Int64
  deriving DecidableEq

/-- The digests of a publisher and of its network. -/
abbrev Publisher := UInt32 × UInt32

/-- What is kept of an event. -/
structure Offer where
  key : Key
  size : UInt64
  name : Str
  layer : UInt8
  rule : Option Str
  whitelisted : Bool
  publisher : Publisher

structure Row where
  name : Str
  size : UInt64
  layer : UInt8
  rule : Option Str
  whitelisted : Bool
  firstSeen : Int
  npubs : Nat
  nnets : Nat
  pubs : List Publisher

/-- What a write has to do; an update is of the row of its key. -/
inductive Change
  | new (size : UInt64) (layer : UInt8) (rule : Option Str) (whitelisted : Bool)
      (pubs : List Publisher) (firstSeen : Int)
  | update (pubs : List Publisher) (addedPubs : Nat)
      (verdict : Option (UInt8 × Option Str × Bool))

structure Counts where
  files : Nat
  names : Nat
  publishers : Nat
  deriving DecidableEq

structure Settings where
  maxPending : Nat
  namesPerHash : Nat
  publishersPerName : Nat

structure Writer where
  names : List (Key × Row)
  metaCounts : Counts
  stats : Counts
  pending : List (Key × Str × Change)
  newPerHash : FileHash → Nat

section Digests

variable (md5 : List UInt8 → Vector UInt8 16) (salt : List UInt8)

def nameKey (name : Str) : Int64 :=
  (UInt64.ofNat (ofLeBytes ((md5 (utf8 name)).toList.take 8))).toInt64

def u32Of (d : Vector UInt8 16) : UInt32 := UInt32.ofNat (ofLeBytes (d.toList.take 4))

/-- The name is cut at a character boundary. -/
def NameEvent.offer (e : NameEvent) : Offer where
  key := ⟨e.hash, nameKey md5 (cutAt MAX_NAME e.name)⟩
  size := e.size
  name := cutAt MAX_NAME e.name
  layer := e.layer
  rule := e.rule
  whitelisted := e.whitelisted
  publisher :=
    (u32Of (md5 (salt ++ e.userHash.toList)), u32Of (md5 (salt ++ leBytes 8 e.net.toNat)))

end Digests

def distinctNets (pubs : List Publisher) : Nat := (pubs.map Prod.snd).dedup.length

/-- Is a publisher still to be added? -/
def isAdded (cap : Nat) (pubs : List Publisher) (p : Publisher) : Bool :=
  decide (pubs.length < cap) && !pubs.any fun q => q.1 == p.1

def addPub (cap : Nat) (pubs : List Publisher) (p : Publisher) : List Publisher :=
  if isAdded cap pubs p then pubs ++ [p] else pubs

/-- The first verdict on a clean name. -/
def isFlagging (layer : UInt8) (o : Offer) : Bool := layer == 0 && o.layer != 0

/-- An offer whose change already waits. -/
def foldIn (cap : Nat) (o : Offer) : Change → Change
  | .new size layer rule whitelisted pubs firstSeen =>
    .new size (if isFlagging layer o then o.layer else layer)
      (if isFlagging layer o then o.rule else rule) (whitelisted || o.whitelisted)
      (addPub cap pubs o.publisher) firstSeen
  | .update pubs added verdict =>
    .update (addPub cap pubs o.publisher)
      (if isAdded cap pubs o.publisher then added + 1 else added)
      (if o.layer != 0 && verdict.isNone then some (o.layer, o.rule, o.whitelisted) else verdict)

namespace Writer

def stored (w : Writer) (hash : FileHash) : Nat :=
  (w.names.filter fun e => decide (e.1.hash = hash)).length

def add (s : Settings) (w : Writer) (o : Offer) (now : Int) : Writer :=
  let cap := s.publishersPerName
  match w.pending.lookup o.key with
  | some _ =>
    { w with pending := alter w.pending o.key fun e => (e.1, foldIn cap o e.2) }
  | none =>
    match w.names.lookup o.key with
    | some row =>
      let added := isAdded cap row.pubs o.publisher
      let verdict :=
        if isFlagging row.layer o then some (o.layer, o.rule, o.whitelisted) else none
      if !added && verdict.isNone then w
      else
        { w with
          pending := w.pending ++ [(o.key, [], .update (addPub cap row.pubs o.publisher)
            (if added then 1 else 0) verdict)] }
    | none =>
      if s.namesPerHash ≤ w.stored o.key.hash + w.newPerHash o.key.hash then w
      else
        { w with
          newPerHash := Function.update w.newPerHash o.key.hash (w.newPerHash o.key.hash + 1)
          pending := w.pending ++ [(o.key, o.name,
            .new o.size o.layer o.rule o.whitelisted [o.publisher] now)] }

end Writer

def insertRow (name : Str) (size : UInt64) (layer : UInt8) (rule : Option Str) (whitelisted : Bool)
    (pubs : List Publisher) (firstSeen : Int) : Row :=
  ⟨name, size, layer, rule, whitelisted, firstSeen, pubs.length, distinctNets pubs, pubs⟩

def updatePubs (pubs : List Publisher) (row : Row) : Row :=
  { row with npubs := pubs.length, nnets := distinctNets pubs, pubs := pubs }

/-- Only a clean row takes a verdict. -/
def updateVerdict (verdict : UInt8 × Option Str × Bool) (row : Row) : Row :=
  if row.layer = 0 then
    { row with layer := verdict.1, rule := verdict.2.1, whitelisted := verdict.2.2 }
  else row

def applyUpdate (pubs : List Publisher) (added : Nat) (verdict : Option (UInt8 × Option Str × Bool))
    (row : Row) : Row :=
  let row := if 0 < added then updatePubs pubs row else row
  verdict.elim row fun v => updateVerdict v row

/-- One change of a batch, with the new files, names and publishers so far. -/
def writeOne (t : List (Key × Row) × Counts) (c : Key × Str × Change) :
    List (Key × Row) × Counts :=
  match c.2.2 with
  | .new size layer rule whitelisted pubs firstSeen =>
    let known := t.1.any fun e => decide (e.1.hash = c.1.hash)
    if (t.1.lookup c.1).isSome then t
    else
      (t.1 ++ [(c.1, insertRow c.2.1 size layer rule whitelisted pubs firstSeen)],
        ⟨if known then t.2.files else t.2.files + 1, t.2.names + 1,
          t.2.publishers + pubs.length⟩)
  | .update pubs added verdict =>
    (alter t.1 c.1 (applyUpdate pubs added verdict),
      { t.2 with publishers := t.2.publishers + added })

/-- The order of the keys. -/
def keyLe (a b : Key) : Bool :=
  decide (a.hash.toList < b.hash.toList) || a.hash == b.hash && decide (a.nkey ≤ b.nkey)

def Counts.add (a b : Counts) : Counts :=
  ⟨a.files + b.files, a.names + b.names, a.publishers + b.publishers⟩

namespace Writer

/-- All that waits, in one transaction. -/
def flush (w : Writer) : Writer :=
  let w := { w with newPerHash := fun _ => 0 }
  if w.pending = [] then w
  else
    let batch := w.pending.mergeSort fun a b => keyLe a.1 b.1
    let (names, counts) := batch.foldl writeOne (w.names, ⟨0, 0, 0⟩)
    { w with
      names := names
      metaCounts := w.stats.add counts
      stats := w.stats.add counts
      pending := [] }

end Writer

/-- What the writer's thread gets: an offer, with the time, or the end of a wait. -/
inductive Msg
  | event (e : NameEvent) (now : Int)
  | flush

section Run

variable (md5 : List UInt8 → Vector UInt8 16) (salt : List UInt8) (s : Settings)

def handle (w : Writer) : Msg → Writer
  | .event e now =>
    let w := w.add s (e.offer md5 salt) now
    if s.maxPending ≤ w.pending.length then w.flush else w
  | .flush => w.flush

/-- All messages, and the flush at the end. -/
def run (w : Writer) (msgs : List Msg) : Writer := (msgs.foldl (handle md5 salt s) w).flush

end Run

/-- The offers among the messages. -/
def eventsOf : List Msg → List NameEvent
  | [] => []
  | .event e _ :: msgs => e :: eventsOf msgs
  | .flush :: msgs => eventsOf msgs

end Ed2kServer.Publish.NameDb
