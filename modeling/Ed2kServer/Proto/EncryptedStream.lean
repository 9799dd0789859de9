import Ed2kServer.Lib.Transition
import Ed2kServer.Proto.Obfuscation

namespace Ed2kServer.Proto.EncryptedStream

open Ed2kServer.Lib.Transition Ed2kServer.Lib.Xor Ed2kServer.Proto.Obfuscation

inductive IoError
  | writeZero
  | broken
  deriving DecidableEq

inductive Poll (α : Type)
  | ready (r : Except IoError α)
  | pending

/-- What the socket does with one write. -/
inductive WriteAnswer
  | took (n : Nat)
  | pending
  | failed

inductive ReadAnswer
  | got (bytes : List UInt8)
  | pending
  | failed

structure CryptStream where
  recvKey : Option Rc4
  sendKey : Option Rc4
  /-- Bytes to serve before reading from the socket. -/
  prefixBytes : List UInt8
  prefixPos : Nat
  /-- Ciphertext the socket has not taken, from `pendingPos` on. -/
  pending : List UInt8
  pendingPos : Nat

def CryptStream.plain : CryptStream := ⟨none, none, [], 0, [], 0⟩

def CryptStream.plainWithPrefix (prefixBytes : List UInt8) : CryptStream :=
  ⟨none, none, prefixBytes, 0, [], 0⟩

def CryptStream.encrypted (recvKey sendKey : Rc4) : CryptStream :=
  ⟨some recvKey, some sendKey, [], 0, [], 0⟩

def CryptStream.encryptedWithPrefix (recvKey sendKey : Rc4) (prefixBytes : List UInt8) :
    CryptStream := ⟨some recvKey, some sendKey, prefixBytes, 0, [], 0⟩

def MAX_ENCRYPT_CHUNK : Nat := 64 * 1024

def CryptStream.unsent (s : CryptStream) : List UInt8 := s.pending.drop s.pendingPos

/-- Write out pending ciphertext: the stream, the bytes the socket took and the result. The
socket that runs out of answers has none yet. -/
def pollDrainPending (answers : List WriteAnswer) (s : CryptStream) :
    CryptStream × List UInt8 × Poll Unit :=
  if s.pending.length ≤ s.pendingPos then
    ({ s with pending := [], pendingPos := 0 }, [], .ready (.ok ()))
  else
    match answers with
    | [] => (s, [], .pending)
    | .pending :: _ => (s, [], .pending)
    | .failed :: _ => (s, [], .ready (.error .broken))
    | .took n :: answers =>
      let n := min n s.unsent.length
      if n = 0 then (s, [], .ready (.error .writeZero))
      else
        let out := pollDrainPending answers { s with pendingPos := s.pendingPos + n }
        (out.1, s.unsent.take n ++ out.2.1, out.2.2)

def pollWritePlain (buf : List UInt8) : List WriteAnswer → List UInt8 × Poll Nat
  | .took n :: _ => (buf.take n, .ready (.ok (min n buf.length)))
  | .failed :: _ => ([], .ready (.error .broken))
  | _ => ([], .pending)

/-- The socket answers the writes before the new bytes and those after with its own lists. -/
def pollWrite (s : CryptStream) (buf : List UInt8) (before after : List WriteAnswer) :
    CryptStream × List UInt8 × Poll Nat :=
  match s.sendKey with
  | none => (s, pollWritePlain buf before)
  | some key =>
    match pollDrainPending before s with
    | (s, sent, .ready (.error e)) => (s, sent, .ready (.error e))
    | (s, sent, .pending) => (s, sent, .pending)
    | (s, sent, .ready (.ok ())) =>
      if buf = [] then (s, sent, .ready (.ok 0))
      else
        let take := min buf.length MAX_ENCRYPT_CHUNK
        let out := key.apply (s.pending ++ buf.take take)
        match pollDrainPending after { s with sendKey := some out.2, pending := out.1 } with
        | (s, more, .ready (.error e)) => (s, sent ++ more, .ready (.error e))
        | (s, more, _) => (s, sent ++ more, .ready (.ok take))

/-- A flush, or a shutdown: once nothing is pending the socket's own answer counts. -/
def pollFlush (s : CryptStream) (answers : List WriteAnswer) (inner : Poll Unit) :
    CryptStream × List UInt8 × Poll Unit :=
  match pollDrainPending answers s with
  | (s, sent, .ready (.ok ())) => (s, sent, inner)
  | other => other

def pollShutdown (s : CryptStream) (answers : List WriteAnswer) (inner : Poll Unit) :
    CryptStream × List UInt8 × Poll Unit := pollFlush s answers inner

/-- The bytes put into a buffer with `room` left, after those taken from the socket. -/
def pollRead (s : CryptStream) (room : Nat) (answer : ReadAnswer) :
    CryptStream × List UInt8 × List UInt8 × Poll Unit :=
  if s.prefixPos < s.prefixBytes.length then
    let toCopy := min (s.prefixBytes.length - s.prefixPos) room
    ({ s with prefixPos := s.prefixPos + toCopy }, [],
      (s.prefixBytes.drop s.prefixPos).take toCopy, .ready (.ok ()))
  else
    match answer with
    | .pending => (s, [], [], .pending)
    | .failed => (s, [], [], .ready (.error .broken))
    | .got bytes =>
      let bytes := bytes.take room
      match s.recvKey with
      | none => (s, bytes, bytes, .ready (.ok ()))
      | some key =>
        let out := key.apply bytes
        ({ s with recvKey := some out.2 }, bytes, out.1, .ready (.ok ()))

/-- A stream, the bytes its socket took and gave, the plaintext the returned counts claim as
accepted and the bytes its reader got. -/
structure World where
  stream : CryptStream
  taken : List UInt8
  accepted : List UInt8
  incoming : List UInt8
  delivered : List UInt8

def World.new (recvKey sendKey : Rc4) (prefixBytes : List UInt8) : World :=
  ⟨.encryptedWithPrefix recvKey sendKey prefixBytes, [], [], [], []⟩

inductive Call
  | write (buf : List UInt8) (before after : List WriteAnswer)
  | flush (answers : List WriteAnswer) (inner : Poll Unit)
  | shutdown (answers : List WriteAnswer) (inner : Poll Unit)
  | read (room : Nat) (answer : ReadAnswer)

def World.sent (w : World) (stream : CryptStream) (bytes : List UInt8) : World :=
  { w with stream := stream, taken := w.taken ++ bytes }

/-- An error ends the connection. -/
def step (w : World) : Call → Option World
  | .write buf before after =>
    match pollWrite w.stream buf before after with
    | (_, _, .ready (.error _)) => none
    | (s, bytes, .pending) => some (w.sent s bytes)
    | (s, bytes, .ready (.ok n)) =>
      some { w.sent s bytes with accepted := w.accepted ++ buf.take n }
  | .flush answers inner =>
    match pollFlush w.stream answers inner with
    | (_, _, .ready (.error _)) => none
    | (s, bytes, _) => some (w.sent s bytes)
  | .shutdown answers inner =>
    match pollShutdown w.stream answers inner with
    | (_, _, .ready (.error _)) => none
    | (s, bytes, _) => some (w.sent s bytes)
  | .read room answer =>
    match pollRead w.stream room answer with
    | (_, _, _, .ready (.error _)) => none
    | (s, bytes, out, _) =>
      some { w with
        stream := s
        incoming := w.incoming ++ bytes
        delivered := w.delivered ++ out }

/-- Only the ciphertext that waits differs. -/
def SameButPending (s s' : CryptStream) : Prop :=
  ∃ pending pos, s' = { s with pending := pending, pendingPos := pos }

theorem pollDrainPending_spec (answers : List WriteAnswer) (s : CryptStream) :
    SameButPending s (pollDrainPending answers s).1 ∧
      (pollDrainPending answers s).2.1 ++ (pollDrainPending answers s).1.unsent = s.unsent ∧
      ((pollDrainPending answers s).2.2 = .ready (.ok ()) →
        (pollDrainPending answers s).1 = { s with pending := [], pendingPos := 0 } ∧
          (pollDrainPending answers s).2.1 = s.unsent) := by
  induction answers generalizing s with
  | nil =>
    rw [pollDrainPending.eq_def]
    split
    · rename_i hle
      have hnone : s.unsent = [] := List.drop_eq_nil_of_le hle
      exact ⟨⟨[], 0, rfl⟩, by rw [hnone]; rfl, fun _ => ⟨rfl, hnone.symm⟩⟩
    · exact ⟨⟨s.pending, s.pendingPos, rfl⟩, rfl, fun h => by cases h⟩
  | cons answer answers ih =>
    rw [pollDrainPending.eq_def]
    split
    · rename_i hle
      have hnone : s.unsent = [] := List.drop_eq_nil_of_le hle
      exact ⟨⟨[], 0, rfl⟩, by rw [hnone]; rfl, fun _ => ⟨rfl, hnone.symm⟩⟩
    · cases answer with
      | pending => exact ⟨⟨s.pending, s.pendingPos, rfl⟩, rfl, fun h => by cases h⟩
      | failed => exact ⟨⟨s.pending, s.pendingPos, rfl⟩, rfl, fun h => by cases h⟩
      | took n =>
        dsimp only
        split
        · exact ⟨⟨s.pending, s.pendingPos, rfl⟩, rfl, fun h => by cases h⟩
        · set k := min n s.unsent.length with hk
          obtain ⟨⟨p, pos, hsame⟩, hbytes, hdone⟩ := ih { s with pendingPos := s.pendingPos + k }
          have hrest : CryptStream.unsent { s with pendingPos := s.pendingPos + k } =
              s.unsent.drop k := (List.drop_drop ..).symm
          rw [hrest] at hbytes hdone
          refine ⟨⟨p, pos, hsame⟩, ?_, fun h => ?_⟩
          · rw [List.append_assoc, hbytes, List.take_append_drop]
          · obtain ⟨hempty, hall⟩ := hdone h
            exact ⟨hempty, by rw [hall, List.take_append_drop]⟩

variable {recvKey sendKey : Rc4} {prefixBytes : List UInt8} {w w' : World}

/-- Both halves stand on the byte after the last one used; what was taken and what waits are the
key stream on what was accepted; what was read is the prefix, then the socket's bytes deciphered. -/
structure InStep (recvKey sendKey : Rc4) (prefixBytes : List UInt8) (w : World) : Prop where
  send : w.stream.sendKey = some (sendKey.skip w.accepted.length)
  recv : w.stream.recvKey = some (recvKey.skip w.incoming.length)
  start : w.stream.prefixBytes = prefixBytes
  taken : w.taken ++ w.stream.unsent =
    xorBytes w.accepted (sendKey.keystream w.accepted.length)
  delivered : w.delivered = prefixBytes.take w.stream.prefixPos ++
    xorBytes w.incoming (recvKey.keystream w.incoming.length)
  first : w.incoming ≠ [] → prefixBytes.length ≤ w.stream.prefixPos

/-- Enciphering where the last call stopped continues the key stream. -/
theorem apply_skip (c : Rc4) (data data' : List UInt8) :
    xorBytes data (c.keystream data.length) ++ ((c.skip data.length).apply data').1 =
      xorBytes (data ++ data') (c.keystream (data ++ data').length) := by
  rw [apply_eq, List.length_append, keystream_add, xorBytes_append (length_keystream c _).symm]

theorem skip_apply (c : Rc4) (data data' : List UInt8) :
    ((c.skip data.length).apply data').2 = c.skip (data ++ data').length := by
  rw [apply_snd, ← skip_add, List.length_append]

/-- Sending what waits keeps everything in step. -/
theorem inStep_sent (h : InStep recvKey sendKey prefixBytes w) {s : CryptStream}
    {bytes : List UInt8} (hs : SameButPending w.stream s)
    (hb : bytes ++ s.unsent = w.stream.unsent) :
    InStep recvKey sendKey prefixBytes (w.sent s bytes) := by
  obtain ⟨p, pos, rfl⟩ := hs
  refine ⟨h.send, h.recv, h.start, ?_, h.delivered, h.first⟩
  rw [World.sent, List.append_assoc, hb, h.taken]

theorem pollFlush_spec (s : CryptStream) (answers : List WriteAnswer) (inner : Poll Unit) :
    SameButPending s (pollFlush s answers inner).1 ∧
      (pollFlush s answers inner).2.1 ++ (pollFlush s answers inner).1.unsent = s.unsent ∧
      ((pollFlush s answers inner).2.2 = .ready (.ok ()) →
        (pollFlush s answers inner).1.pending = []) := by
  obtain ⟨hsame, hbytes, hdone⟩ := pollDrainPending_spec answers s
  rw [pollFlush]
  split
  · rename_i s' sent hd
    rw [hd] at hsame hbytes hdone
    exact ⟨hsame, hbytes, fun _ => congrArg CryptStream.pending (hdone rfl).1⟩
  · exact ⟨hsame, hbytes, fun h => congrArg CryptStream.pending (hdone h).1⟩

/-- A call that accepts bytes has enciphered exactly these, behind all that waited. -/
theorem pollWrite_spec {key : Rc4} {s s' : CryptStream} {buf bytes : List UInt8}
    {before after : List WriteAnswer} {r : Poll Nat} (hkey : s.sendKey = some key)
    (h : pollWrite s buf before after = (s', bytes, r)) :
    (r = .pending ∧ SameButPending s s' ∧ bytes ++ s'.unsent = s.unsent) ∨
      (∃ e, r = .ready (.error e)) ∨
      ∃ n, r = .ready (.ok n) ∧
        SameButPending { s with sendKey := some (key.apply (buf.take n)).2 } s' ∧
        bytes ++ s'.unsent = s.unsent ++ (key.apply (buf.take n)).1 := by
  rw [pollWrite, hkey] at h
  have hdrain := pollDrainPending_spec before s
  generalize pollDrainPending before s = first at h hdrain
  obtain ⟨s₁, sent, r₁⟩ := first
  obtain ⟨hsame, hbytes, hdone⟩ := hdrain
  cases r₁ with
  | pending =>
    obtain ⟨rfl, rfl, rfl⟩ := by simpa using h
    exact Or.inl ⟨rfl, hsame, hbytes⟩
  | ready out =>
    cases out with
    | error e =>
      obtain ⟨-, -, rfl⟩ := by simpa using h
      exact Or.inr (Or.inl ⟨e, rfl⟩)
    | ok u =>
      obtain ⟨rfl, rfl⟩ := hdone rfl
      dsimp only at h
      by_cases hbuf : buf = []
      · rw [if_pos hbuf] at h
        obtain ⟨rfl, rfl, rfl⟩ := by simpa using h
        refine Or.inr (Or.inr ⟨0, rfl, ⟨[], 0, ?_⟩, ?_⟩)
        · rw [List.take_zero, Rc4.apply, ← hkey]
        · rw [hbytes, List.take_zero, Rc4.apply, List.append_nil]
      · rw [if_neg hbuf, List.nil_append] at h
        set n := min buf.length MAX_ENCRYPT_CHUNK with hn
        have hdrain := pollDrainPending_spec after { s with
          sendKey := some (key.apply (buf.take n)).2
          pending := (key.apply (buf.take n)).1
          pendingPos := 0 }
        generalize pollDrainPending after _ = second at h hdrain
        obtain ⟨s₂, more, r₂⟩ := second
        obtain ⟨⟨p, pos, hsame⟩, hmore, -⟩ := hdrain
        have hwaits : more ++ s₂.unsent = (key.apply (buf.take n)).1 := hmore
        have hfinish : (s₂, s.unsent ++ more, Poll.ready (.ok n)) = (s', bytes, r) →
            ∃ n, r = .ready (.ok n) ∧
              SameButPending { s with sendKey := some (key.apply (buf.take n)).2 } s' ∧
              bytes ++ s'.unsent = s.unsent ++ (key.apply (buf.take n)).1 := by
          intro he
          obtain ⟨rfl, rfl, rfl⟩ := by simpa using he
          exact ⟨n, rfl, ⟨p, pos, hsame⟩, by rw [List.append_assoc, hwaits]⟩
        cases r₂ with
        | pending => exact Or.inr (Or.inr (hfinish h))
        | ready out₂ =>
          cases out₂ with
          | error e =>
            obtain ⟨-, -, rfl⟩ := by simpa using h
            exact Or.inr (Or.inl ⟨e, rfl⟩)
          | ok u => exact Or.inr (Or.inr (hfinish h))

theorem inStep_write (h : InStep recvKey sendKey prefixBytes w) {buf : List UInt8}
    {before after : List WriteAnswer} (hs : step w (.write buf before after) = some w') :
    InStep recvKey sendKey prefixBytes w' := by
  rw [step] at hs
  split at hs
  · cases hs
  · rename_i s bytes hw
    obtain rfl := Option.some.inj hs
    obtain ⟨-, hsame, hbytes⟩ | ⟨e, he⟩ | ⟨n, hn, -⟩ := pollWrite_spec h.send hw
    · exact inStep_sent h hsame hbytes
    · cases he
    · cases hn
  · rename_i s bytes n hw
    obtain rfl := Option.some.inj hs
    obtain ⟨hp, -⟩ | ⟨e, he⟩ | ⟨m, hm, ⟨p, pos, rfl⟩, hbytes⟩ := pollWrite_spec h.send hw
    · cases hp
    · cases he
    · obtain rfl : n = m := by simpa using hm
      refine ⟨?_, h.recv, h.start, ?_, h.delivered, h.first⟩
      · exact congrArg some (skip_apply sendKey w.accepted (buf.take n))
      · rw [World.sent, List.append_assoc, hbytes, ← List.append_assoc, h.taken, apply_skip]

theorem inStep_flush (h : InStep recvKey sendKey prefixBytes w) {answers : List WriteAnswer}
    {inner : Poll Unit} (hs : step w (.flush answers inner) = some w') :
    InStep recvKey sendKey prefixBytes w' := by
  obtain ⟨hsame, hbytes, -⟩ := pollFlush_spec w.stream answers inner
  rw [step] at hs
  split at hs
  · cases hs
  · rename_i s bytes r hne hf
    rw [hf] at hsame hbytes
    obtain rfl := Option.some.inj hs
    exact inStep_sent h hsame hbytes

theorem inStep_read (h : InStep recvKey sendKey prefixBytes w) {room : Nat} {answer : ReadAnswer}
    (hs : step w (.read room answer) = some w') : InStep recvKey sendKey prefixBytes w' := by
  rw [step] at hs
  by_cases hp : w.stream.prefixPos < w.stream.prefixBytes.length
  · have hnone : w.incoming = [] := by
      by_contra hne
      have hfirst := h.first hne
      rw [← h.start] at hfirst
      omega
    rw [pollRead.eq_def, if_pos hp] at hs
    obtain rfl := Option.some.inj hs
    refine ⟨h.send, ?_, h.start, h.taken, ?_, fun hne => absurd hnone (by simpa using hne)⟩
    · rw [List.append_nil]
      exact h.recv
    · simp only [List.append_nil, List.take_add]
      rw [h.delivered, h.start, hnone]
      simp [xorBytes]
  · have hall : prefixBytes.length ≤ w.stream.prefixPos := by
      rw [← h.start]
      omega
    rw [pollRead.eq_def, if_neg hp] at hs
    cases answer with
    | pending =>
      obtain rfl := Option.some.inj hs
      simpa using h
    | failed => cases hs
    | got bytes =>
      simp only [h.recv] at hs
      obtain rfl := Option.some.inj hs
      refine ⟨h.send, ?_, h.start, h.taken, ?_, fun _ => hall⟩
      · exact congrArg some (skip_apply recvKey w.incoming (bytes.take room))
      · rw [h.delivered, List.append_assoc, apply_skip]

theorem inStep_step (h : InStep recvKey sendKey prefixBytes w) (c : Call)
    (hs : step w c = some w') : InStep recvKey sendKey prefixBytes w' := by
  cases c with
  | write buf before after => exact inStep_write h hs
  | flush answers inner => exact inStep_flush h hs
  | shutdown answers inner => exact inStep_flush h hs
  | read room answer => exact inStep_read h hs

theorem inStep_new (recvKey sendKey : Rc4) (prefixBytes : List UInt8) :
    InStep recvKey sendKey prefixBytes (.new recvKey sendKey prefixBytes) :=
  ⟨rfl, rfl, rfl, rfl, rfl, fun h => absurd rfl h⟩

/-- Whatever is called in whatever order and however the socket answers: the bytes it took, then
those that wait, are the key stream on the bytes accepted, and none waits after a successful flush;
the reader gets the prefix and then the socket's bytes under the other key stream. -/
theorem stream_integrity {recvKey sendKey : Rc4} {prefixBytes : List UInt8} {calls : List Call}
    {w : World} (hrun : exec step (.new recvKey sendKey prefixBytes) calls = some w) :
    w.taken ++ w.stream.unsent =
        xorBytes w.accepted (sendKey.keystream w.accepted.length) ∧
      (∀ answers inner, (pollFlush w.stream answers inner).2.2 = .ready (.ok ()) →
        (pollFlush w.stream answers inner).1.pending = [] ∧
          w.taken ++ (pollFlush w.stream answers inner).2.1 =
            xorBytes w.accepted (sendKey.keystream w.accepted.length)) ∧
      w.delivered = prefixBytes.take w.stream.prefixPos ++
        xorBytes w.incoming (recvKey.keystream w.incoming.length) ∧
      (w.incoming ≠ [] → prefixBytes.take w.stream.prefixPos = prefixBytes) := by
  have h := exec_invariant (fun w c w' h hs => inStep_step h c hs)
    (inStep_new recvKey sendKey prefixBytes) hrun
  refine ⟨h.taken, fun answers inner hdone => ?_, h.delivered,
    fun hne => List.take_of_length_le (h.first hne)⟩
  obtain ⟨-, hbytes, hempty⟩ := pollFlush_spec w.stream answers inner
  have hnone := hempty hdone
  refine ⟨hnone, ?_⟩
  rw [CryptStream.unsent, hnone, List.drop_nil, List.append_nil] at hbytes
  rw [hbytes, h.taken]

def sampleCipher : Rc4 := ⟨Vector.ofFn (fun i => UInt8.ofFin i), 0, 0⟩

/-- A short write, a full socket, the rest on a flush; a read of the prefix and one behind it. -/
def shortWrite : List Call :=
  [.write [1, 2, 3] [] [.took 1, .pending], .read 4 .pending, .flush [.took 5] (.ready (.ok ())),
    .read 4 (.got [9])]

theorem stream_integrity_shortWrite : ∃ w,
    exec step (.new sampleCipher sampleCipher [7]) shortWrite = some w ∧
      w.taken ++ w.stream.unsent =
        xorBytes w.accepted (sampleCipher.keystream w.accepted.length) := by
  obtain ⟨w, hrun⟩ := Option.isSome_iff_exists.mp
    (by decide : (exec step (.new sampleCipher sampleCipher [7]) shortWrite).isSome = true)
  exact ⟨w, hrun, (stream_integrity hrun).1⟩

end Ed2kServer.Proto.EncryptedStream
