import Ed2kServer.Filter.Loaders
import Ed2kServer.Lib.Transition

namespace Ed2kServer.Server.HotReload

open Ed2kServer.Filter.Loaders Ed2kServer.Slab.Record

variable {C L : Type}

/-- A configured file. -/
structure File (C : Type) where
  content : C
  mtime : Nat
  /-- The number of the edit that wrote it, 0 where it is as before the start. -/
  edit : Nat
  deriving DecidableEq

/-- The start-up load, and from there the watcher of its files. -/
inductive Watcher (C : Type)
  | loading (read : List (File C))
  /-- The first modification time, in the watcher's task. -/
  | starting (seen : List (File C))
  | waiting
  | checking (seen : List (File C))
  | reading (seen read : List (File C))
  /-- Remember the time of the files that were loaded. -/
  | applied (seen : List (File C))
  deriving DecidableEq

/-- One list of the content filter and its files. -/
structure State (C L : Type) where
  files : List (File C)
  edits : Nat
  /-- The list in force. -/
  force : L
  lastMtime : Option Nat
  watcher : Watcher C
  /-- What a reload has read, while there is one. -/
  reload : Option (List (File C))
  /-- The files as the list in force was read from, or a later load rejected them. -/
  asOf : List (File C)
  /-- The files as they were when the remembered time was read. -/
  noted : List (File C)
  /-- The list of the last files read that parsed. -/
  good : L
  /-- The ticks begun since the last edit. -/
  ticks : Nat
  /-- No reload was in progress since the last tick began. -/
  calm : Bool
  deriving DecidableEq

/-- The start of the server; `builtIn` is the list where nothing is loaded. -/
def init (files : List (C × Nat)) (builtIn : L) : State C L where
  files := files.map fun f => ⟨f.1, f.2, 0⟩
  edits := 0
  force := builtIn
  lastMtime := none
  watcher := .loading []
  reload := none
  asOf := []
  noted := []
  good := builtIn
  ticks := 0
  calm := false

/-- The greatest modification time. -/
def maxMtime (files : List (File C)) : Option Nat := (files.map File.mtime).max?

/-- The loader of the hash lists: the hashes of all files. -/
def loadHashLists (contents : List (List UInt8)) : Option (List FileHash) :=
  some (contents.flatMap loadHashFile)

/-- The loader of a term list, which has one file. -/
def loadTerms (contents : List (List UInt8)) : Option (List Str) :=
  some (contents.flatMap loadTermsFile)

/-- The loader of the Layer 2 vocabulary, which has one file. -/
def loadLayer2Terms {T : Type} (parse : List UInt8 → Option T) (contents : List (List UInt8)) :
    Option T :=
  contents.head?.bind parse

variable (load : List C → Option L)

/-- The list of these files, if they parse. -/
def loaded (files : List (File C)) : Option L := load (files.map File.content)

namespace State

/-- The files have been read this far. -/
def noteRead (s : State C L) (read : List (File C)) : State C L :=
  if read.length = s.files.length then { s with good := (loaded load read).getD s.good } else s

/-- Put what was read in force, or keep the list where it does not parse. -/
def apply (s : State C L) (read : List (File C)) : State C L :=
  { s with force := (loaded load read).getD s.force, asOf := read }

end State

/-- The next step of the start-up load or of the watcher. -/
def watch (s : State C L) : Watcher C → State C L
  | .loading read =>
    match s.files[read.length]? with
    | some f => { s.noteRead load (read ++ [f]) with watcher := .loading (read ++ [f]) }
    | none => { s.apply load read with watcher := .starting [] }
  | .starting seen =>
    match s.files[seen.length]? with
    | some f => { s with watcher := .starting (seen ++ [f]) }
    | none => { s with lastMtime := maxMtime seen, noted := seen, watcher := .waiting }
  | .waiting =>
    { s with watcher := .checking [], ticks := s.ticks + 1, calm := s.reload.isNone }
  | .checking seen =>
    match s.files[seen.length]? with
    | some f => { s with watcher := .checking (seen ++ [f]) }
    | none =>
      if maxMtime seen = s.lastMtime then { s with noted := seen, watcher := .waiting }
      else { s with watcher := .reading seen [] }
  | .reading seen read =>
    match s.files[read.length]? with
    | some f => { s.noteRead load (read ++ [f]) with watcher := .reading seen (read ++ [f]) }
    | none => { s.apply load read with watcher := .applied seen }
  | .applied seen => { s with lastMtime := maxMtime seen, noted := seen, watcher := .waiting }

def Watcher.isLoading : Watcher C → Bool
  | .loading _ => true
  | _ => false

/-- The next step of a reload. -/
def reload (s : State C L) (read : List (File C)) : State C L :=
  match s.files[read.length]? with
  | some f => { s.noteRead load (read ++ [f]) with reload := some (read ++ [f]) }
  | none => { s.apply load read with reload := none }

inductive Event (C : Type)
  /-- The file is written, which gives it another modification time. -/
  | edit (i : Nat) (content : C) (mtime : Nat)
  | watch
  /-- SIGHUP or `/api/reload`, where the reload comes to this list. -/
  | beginReload
  | reload

def step (s : State C L) : Event C → Option (State C L)
  | .edit i content mtime =>
    s.files[i]?.bind fun f =>
      if mtime = f.mtime then none
      else some { s with
        files := s.files.set i ⟨content, mtime, s.edits + 1⟩
        edits := s.edits + 1
        ticks := 0 }
  | .watch => some (watch load s s.watcher)
  | .beginReload =>
    if s.reload = none ∧ s.watcher.isLoading = false then
      some { s with reload := some [], calm := false }
    else none
  | .reload => s.reload.map (reload load s)

end Ed2kServer.Server.HotReload
