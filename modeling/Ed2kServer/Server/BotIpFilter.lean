import Ed2kServer.Filter.IpFilter

namespace Ed2kServer.Server.BotIpFilter

open Ed2kServer.Filter.IpFilter Ed2kServer.Filter.Loaders Ed2kServer.Text.Lines
open Ed2kServer.Text.Utf8

/-- `std::fs::read_to_string`. -/
def readToString (bytes : List UInt8) : Option Str :=
  let text := fromUtf8Lossy bytes
  if utf8 text = bytes then some text else none

/-- `str::split_whitespace`, the first word. -/
def firstWord (line : Str) : Option Str :=
  let word := (line.dropWhile isWhitespace).takeWhile (! isWhitespace ·)
  if word = [] then none else some word

/-- Is the address already covered by a line? -/
def covered (content : Str) (ip : UInt32) : Bool :=
  (lines content).any fun l =>
    let l := trim l
    !isSkipped l && (parseLine l).any fun r => r.1 ≤ ip && ip ≤ r.2

/-- The addresses that a list of added ones holds. -/
def recorded (text : Str) : List UInt32 :=
  (lines text).filterMap fun l => (firstWord l).bind parseIpv4

/-- The pieces of a line of the filter file. -/
inductive Stage
  | sep
  | line
  | newline
  deriving DecidableEq

/-- The pieces of a line of the list of added addresses. -/
inductive Part
  | key
  | space
  | time
  | newline
  deriving DecidableEq

/-- What a job does next; `todo` is what `reassert` is still to put back. -/
inductive Phase
  /-- Read the list of added addresses. -/
  | reading
  | check (todo : List UInt32)
  | opening (ip : UInt32) (stage : Stage) (todo : List UInt32)
  /-- `attached` unless the file that was opened has been replaced. -/
  | writing (ip : UInt32) (attached : Bool) (stage : Stage) (todo : List UInt32)
  | remember (ip : UInt32)
  | recording (ip : UInt32) (part : Part)
  | load
  | swap (ranges : List (UInt32 × UInt32))
  | done
  deriving DecidableEq

/-- A job of `add_async`, with its address, or a reload. -/
structure Job where
  adds : Option UInt32
  phase : Phase
  deriving DecidableEq

structure State where
  /-- A missing file reads as an empty one. -/
  filterFile : List UInt8
  listFile : List UInt8
  /-- The filter in force. -/
  force : List (UInt32 × UInt32)
  jobs : List Job
  /-- The filter file as it was at the start, or when it was replaced last. -/
  installed : List UInt8
  /-- The addresses whose jobs have finished. -/
  added : List UInt32
  /-- The reload that has the server to itself: when it began every job had finished, and nothing
  else has happened since. -/
  alone : Option Nat

/-- The start of the server, which begins with a reload. -/
def init (filterFile : List UInt8) (list : Str) : State where
  filterFile := filterFile
  listFile := utf8 list
  force := []
  jobs := [⟨none, .reading⟩]
  installed := filterFile
  added := []
  alone := some 0

namespace State

@[simps] def setPhase (s : State) (j : Nat) (job : Job) (phase : Phase) : State :=
  { s with jobs := s.jobs.set j { job with phase } }

/-- Write to the filter file, if it is still the one that was opened. -/
@[simps] def writeFilter (s : State) (attached : Bool) (text : Str) : State :=
  { s with filterFile := if attached then s.filterFile ++ utf8 text else s.filterFile }

@[simps] def writeList (s : State) (text : Str) : State :=
  { s with listFile := s.listFile ++ utf8 text }

@[simps] def finish (s : State) (job : Job) (ranges : List (UInt32 × UInt32)) : State :=
  { s with force := ranges, added := job.adds.toList ++ s.added }

end State

/-- The file that was opened is replaced. -/
def detach (job : Job) : Job :=
  match job.phase with
  | .writing ip _ stage todo => { job with phase := .writing ip false stage todo }
  | _ => job

variable (rfc3339 : Nat → Str)

/-- The next step of a job. -/
def next (s : State) (j : Nat) (now : Nat) (job : Job) : Option State :=
  match job.phase with
  | .reading => some (s.setPhase j job (.check ((readToString s.listFile).elim [] recorded)))
  | .check [] => some (s.setPhase j job (job.adds.elim .load .remember))
  | .check (ip :: todo) =>
    let content := fromUtf8Lossy s.filterFile
    some (s.setPhase j job
      (if covered content ip then .check todo
      else .opening ip (if FreshLine content then .line else .sep) todo))
  | .opening ip stage todo => some (s.setPhase j job (.writing ip true stage todo))
  | .writing ip attached .sep todo =>
    some ((s.writeFilter attached ['\n']).setPhase j job (.writing ip attached .line todo))
  | .writing ip attached .line todo =>
    some ((s.writeFilter attached (formatLine ip)).setPhase j job
      (.writing ip attached .newline todo))
  | .writing _ attached .newline todo =>
    some ((s.writeFilter attached ['\n']).setPhase j job (.check todo))
  | .remember ip =>
    let text := (readToString s.listFile).getD []
    some (s.setPhase j job
      (if (lines text).any (firstWord · == some (ipString ip)) then .load
      else .recording ip .key))
  | .recording ip .key =>
    some ((s.writeList (ipString ip)).setPhase j job (.recording ip .space))
  | .recording ip .space => some ((s.writeList [' ']).setPhase j job (.recording ip .time))
  | .recording ip .time =>
    some ((s.writeList (rfc3339 now)).setPhase j job (.recording ip .newline))
  | .recording _ .newline => some ((s.writeList ['\n']).setPhase j job .load)
  | .load => some (s.setPhase j job (.swap (load s.filterFile)))
  | .swap ranges => some ((s.finish job ranges).setPhase j job .done)
  | .done => none

inductive Event
  | add (ip : UInt32)
  | reload
  | next (j : Nat) (now : Nat)
  /-- The filter file is replaced whole, by another file or in place. -/
  | replace (content : List UInt8) (renamed : Bool)
  | restart

def step (s : State) : Event → Option State
  | .add ip => some { s with jobs := s.jobs ++ [⟨some ip, .check [ip]⟩], alone := none }
  | .reload => some { s with
      jobs := s.jobs ++ [⟨none, .reading⟩]
      alone := if s.jobs.all (·.phase = .done) then some s.jobs.length else none }
  | .next j now => s.jobs[j]?.bind (next rfc3339 s j now)
  | .replace content renamed => some { s with
      filterFile := content
      jobs := if renamed then s.jobs.map detach else s.jobs
      installed := content
      alone := none }
  | .restart => some { s with force := [], jobs := [⟨none, .reading⟩], alone := some 0 }

end Ed2kServer.Server.BotIpFilter
