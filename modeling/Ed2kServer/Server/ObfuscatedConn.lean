import Ed2kServer.Proto.DhHandshake
import Ed2kServer.Proto.EncryptedStream

namespace Ed2kServer.Server.ObfuscatedConn

open Ed2kServer.Lib.Transition Ed2kServer.Lib.Xor
open Ed2kServer.Proto.Obfuscation Ed2kServer.Proto.DhHandshake Ed2kServer.Proto.EncryptedStream

def PLAIN_MARKERS : List UInt8 := [0xE3, 0xC5, 0xD4]

def DH_REST_MIN : Nat := 97

/-- The client's bytes that have not been read, and the reads so far. -/
structure Socket where
  unread : List UInt8
  calls : Nat

/-- How much has arrived when a read returns, for each of the reads; one that waits returns with a
byte more, so that it is never empty while the client has more to send. -/
abbrev Arrivals := Nat → Nat

variable (md5 : List UInt8 → Digest) (arrived : Arrivals)

namespace Socket

def read (sock : Socket) (room : Nat) : List UInt8 × Socket :=
  let n := min room (arrived sock.calls + 1)
  (sock.unread.take n, ⟨sock.unread.drop n, sock.calls + 1⟩)

/-- Where nothing has arrived the read would block and gives nothing. -/
def tryRead (sock : Socket) (room : Nat) : List UInt8 × Socket :=
  let n := min room (arrived sock.calls)
  (sock.unread.take n, ⟨sock.unread.drop n, sock.calls + 1⟩)

end Socket

/-- Read until the least that a client sends after the marker is there. -/
def readRest (rest : List UInt8) (sock : Socket) : Except String (List UInt8 × Socket) :=
  if rest.length < DH_REST_MIN then
    let (more, sock) := sock.read arrived (DH_REST_MIN + 16 - rest.length)
    if _h : more = [] then .error "connection closed during DH read"
    else readRest (rest ++ more) sock
  else .ok (rest, sock)
termination_by DH_REST_MIN - rest.length
decreasing_by
  have := List.length_pos_iff.mpr _h
  rw [List.length_append]
  omega

/-- Read and decrypt the client's acknowledgement, by one read. -/
def readAck (obf : TcpObfuscation) (sock : Socket) : Except String (CryptStream × Socket) :=
  let (ack, sock) := sock.read arrived 256
  if ack = [] then .error "connection closed during handshake ack"
  else
    match obf.handshake ack with
    | .error e => .error ("obfuscation handshake: " ++ e)
    | .ok (obf, leftover) =>
      match obf.takeKeys with
      | none => .error "keys missing after handshake"
      | some (recvKey, sendKey) =>
        .ok (if leftover = [] then .encrypted recvKey sendKey
          else .encryptedWithPrefix recvKey sendKey leftover, sock)

/-- `reply` is what the client sends on the server's answer. -/
def makeStream (random : Random) (reply : List UInt8 → List UInt8) (supportCrypt : Bool)
    (sock : Socket) : Except String (CryptStream × Socket) :=
  if !supportCrypt then .ok (.plain, sock)
  else
    match sock.read arrived 1 with
    | ([], _) => .error "early eof"
    | (marker :: _, sock) =>
      if marker ∈ PLAIN_MARKERS then .ok (.plainWithPrefix [marker], sock)
      else
        match readRest arrived [] sock with
        | .error e => .error e
        | .ok (rest, sock) =>
          -- the padding, as far as it is there
          let (rest, sock) :=
            if rest.length < DH_REST_MIN + 16 then
              let (extra, sock) := sock.tryRead arrived (DH_REST_MIN + 16 - rest.length)
              (rest ++ extra, sock)
            else (rest, sock)
          match (TcpObfuscation.new true).negotiate md5 random (marker :: rest) with
          | .error e => .error ("obfuscation negotiate: " ++ e)
          | .ok (obf, serverResp) =>
            readAck arrived obf { sock with unread := sock.unread ++ reply serverResp }

/-- A client that follows the protocol. -/
structure Client where
  marker : UInt8
  priv : List UInt8
  padding : List UInt8
  ackPadding : List UInt8
  payload : List UInt8
  marker_notMem : marker ∉ PLAIN_MARKERS
  padding_le : padding.length ≤ 15
  ackPadding_le : ackPadding.length ≤ 255

namespace Client

def hello (c : Client) : List UInt8 :=
  c.marker :: (dhPowMod c.priv ++ UInt8.ofNat c.padding.length :: c.padding)

/-- The client's key stream for what it sends, from the server's public value. -/
def sendKey (c : Client) (bPub : List UInt8) : Rc4 :=
  deriveRc4 md5 (dhShared bPub c.priv) MAGIC_VALUE_REQUESTER

/-- All that the client sends after the server's answer. -/
def reply (c : Client) (serverResp : List UInt8) : List UInt8 :=
  ((c.sendKey md5 (serverResp.take DH_PRIME_SIZE)).apply (ackText c.ackPadding c.payload)).1

end Client

/-- However the stream is read, what comes out begins the payload, and is the whole of it once
nothing is left. -/
def Serves (stream : CryptStream) (unread payload : List UInt8) : Prop :=
  ∀ calls w, exec step ⟨stream, [], [], [], []⟩ calls = some w → w.incoming <+: unread →
    w.delivered <+: payload ∧
      (w.incoming = unread → stream.prefixBytes.length ≤ w.stream.prefixPos →
        w.delivered = payload)

/-- The handshake succeeds with a stream that serves the payload, its key on the next byte of the
payload that is still encrypted. -/
def Yields (c : Client) (random : Random) (result : Except String (CryptStream × Socket)) :
    Prop :=
  ∃ stream sock, result = .ok (stream, sock) ∧ Serves stream sock.unread c.payload ∧
    ∃ taken, taken + sock.unread.length = c.payload.length ∧
      stream.recvKey = some ((c.sendKey md5 (dhPowMod random.bPriv)).skip
        (6 + c.ackPadding.length + taken))

/-- What has arrived of the bytes behind the marker by the end of so many reads. -/
def received : Nat → Nat
  | 0 => 0
  | j + 1 => received j + (arrived (j + 1) + 1)

/-- The reads up to the first by which 97 bytes behind the marker have arrived, with the one that
does not wait, bring the padding, and the next one the whole acknowledgement. -/
def Whole (padding ackPadding : Nat) : Prop :=
  ∃ j, received arrived j < DH_REST_MIN ∧ DH_REST_MIN ≤ received arrived (j + 1) ∧
    DH_REST_MIN + padding ≤ received arrived (j + 1) + arrived (j + 2) ∧
    6 + ackPadding ≤ min 256 (arrived (j + 3) + 1)

/-! ### The reads before the answer -/

variable {arrived}

theorem take_min {room : Nat} (l : List UInt8) (n : Nat) (h : l.length ≤ room) :
    l.take (min room n) = l.take n ∧ l.drop (min room n) = l.drop n := by
  obtain hle | hlt := Nat.le_total n room
  · rw [Nat.min_eq_right hle]
    exact ⟨rfl, rfl⟩
  · rw [Nat.min_eq_left hlt, List.take_of_length_le h, List.take_of_length_le (h.trans hlt),
      List.drop_of_length_le h, List.drop_of_length_le (h.trans hlt)]
    exact ⟨rfl, rfl⟩

theorem received_mono {i j : Nat} (h : i ≤ j) : received arrived i ≤ received arrived j := by
  induction h with
  | refl => exact le_refl _
  | step _ ih => exact ih.trans (Nat.le_add_right _ _)

/-- The loop ends with the read by which 97 bytes have arrived. -/
theorem readRest_spec {hello : List UInt8} (hmin : DH_REST_MIN ≤ hello.length)
    (hmax : hello.length ≤ DH_REST_MIN + 16) {i : Nat} (hi : received arrived i < DH_REST_MIN) :
    ∃ j, received arrived j < DH_REST_MIN ∧ DH_REST_MIN ≤ received arrived (j + 1) ∧
      readRest arrived (hello.take (received arrived i)) ⟨hello.drop (received arrived i), i + 1⟩ =
        .ok (hello.take (received arrived (j + 1)),
          ⟨hello.drop (received arrived (j + 1)), j + 2⟩) := by
  induction hn : DH_REST_MIN - received arrived i using Nat.strongRecOn generalizing i with
  | _ n ih =>
    have hlen : (hello.take (received arrived i)).length = received arrived i := by
      rw [List.length_take]
      omega
    have hroom : (hello.drop (received arrived i)).length ≤
        DH_REST_MIN + 16 - received arrived i := by
      rw [List.length_drop]
      omega
    obtain ⟨htake, hdrop⟩ := take_min _ (arrived (i + 1) + 1) hroom
    have hmore : (hello.drop (received arrived i)).take (arrived (i + 1) + 1) ≠ [] := by
      rw [← List.length_pos_iff, List.length_take, List.length_drop]
      omega
    rw [readRest, hlen, if_pos hi, Socket.read]
    dsimp only
    rw [htake, hdrop, dif_neg hmore, ← List.take_add, List.drop_drop]
    change ∃ j, _ ∧ _ ∧ readRest arrived (hello.take (received arrived (i + 1)))
      ⟨hello.drop (received arrived (i + 1)), i + 1 + 1⟩ = _
    obtain hlt | hge := Nat.lt_or_ge (received arrived (i + 1)) DH_REST_MIN
    · refine ih _ ?_ hlt rfl
      rw [received] at hlt ⊢
      omega
    · refine ⟨i, hi, hge, ?_⟩
      rw [readRest, if_neg]
      rw [List.length_take]
      omega

variable {md5} {random : Random}

/-- The bytes of the hello behind the marker. -/
def Client.rest (c : Client) : List UInt8 :=
  dhPowMod c.priv ++ UInt8.ofNat c.padding.length :: c.padding

theorem Client.length_rest (c : Client) : c.rest.length = DH_REST_MIN + c.padding.length := by
  rw [Client.rest, List.length_append, length_dhPowMod, List.length_cons, DH_PRIME_SIZE,
    DH_REST_MIN]
  omega

/-- Where the public value of the client has arrived, both sides have the same key for what the
client sends. -/
theorem negotiate_rest (c : Client) {n : Nat} (hn : DH_REST_MIN ≤ n) :
    ∃ obf serverResp send,
      (TcpObfuscation.new true).negotiate md5 random (c.marker :: c.rest.take n) =
        .ok (obf, serverResp) ∧
      obf.recvKey = some (c.sendKey md5 (dhPowMod random.bPriv)) ∧ obf.sendKey = some send ∧
      c.reply md5 serverResp = ((c.sendKey md5 (dhPowMod random.bPriv)).apply
        (ackText c.ackPadding c.payload)).1 := by
  have hlen : ¬ (c.marker :: c.rest.take n).length < 1 + DH_PRIME_SIZE + 1 := by
    rw [List.length_cons, List.length_take, c.length_rest]
    simp only [DH_PRIME_SIZE, DH_REST_MIN] at hn ⊢
    omega
  have hpub : ((c.marker :: c.rest.take n).drop 1).take DH_PRIME_SIZE = dhPowMod c.priv := by
    rw [List.drop_succ_cons, List.drop_zero, List.take_take, Nat.min_eq_left, Client.rest]
    · exact List.take_left' (length_dhPowMod c.priv)
    · simp only [DH_PRIME_SIZE, DH_REST_MIN] at hn ⊢
      omega
  rw [TcpObfuscation.negotiate, if_neg hlen]
  dsimp only
  rw [hpub]
  refine ⟨_, _, _, rfl, ?_, rfl, ?_⟩
  · rw [Client.sendKey, dhShared_dhPowMod]
  · rw [Client.reply, List.take_left' (length_dhPowMod random.bPriv)]

/-- What the server has read when it answers, and what it has not. -/
theorem makeStream_eq (c : Client) :
    ∃ j obf send, received arrived j < DH_REST_MIN ∧ DH_REST_MIN ≤ received arrived (j + 1) ∧
      obf.recvKey = some (c.sendKey md5 (dhPowMod random.bPriv)) ∧ obf.sendKey = some send ∧
      makeStream md5 arrived random (c.reply md5) true ⟨c.hello, 0⟩ =
        readAck arrived obf
          ⟨c.rest.drop (received arrived (j + 1) + arrived (j + 2)) ++
            ((c.sendKey md5 (dhPowMod random.bPriv)).apply
              (ackText c.ackPadding c.payload)).1, j + 3⟩ := by
  have hlen := c.length_rest
  have hpadding := c.padding_le
  obtain ⟨j, hlt, hge, hrest⟩ := @readRest_spec arrived c.rest (by omega) (by omega) 0
    (by rw [received]; decide)
  rw [received, List.take_zero, List.drop_zero] at hrest
  obtain ⟨obf, serverResp, send, hnegotiate, hrecv, hsend, hreply⟩ :=
    @negotiate_rest md5 random c _ (hge.trans (Nat.le_add_right _ (arrived (j + 2))))
  refine ⟨j, obf, send, hlt, hge, hrecv, hsend, ?_⟩
  have hfirst : Socket.read arrived ⟨c.hello, 0⟩ 1 = ([c.marker], ⟨c.rest, 1⟩) := by
    rw [Socket.read, Nat.min_eq_left (Nat.le_add_left _ _)]
    rfl
  have hroom : (c.rest.drop (received arrived (j + 1))).length ≤
      DH_REST_MIN + 16 - (c.rest.take (received arrived (j + 1))).length := by
    rw [List.length_drop, List.length_take]
    omega
  have hshort : (c.rest.take (received arrived (j + 1))).length < DH_REST_MIN + 16 := by
    rw [List.length_take]
    omega
  obtain ⟨htake, hdrop⟩ := take_min _ (arrived (j + 2)) hroom
  rw [makeStream, hfirst]
  simp only [Bool.not_true, Bool.false_eq_true, if_false, if_neg c.marker_notMem, hrest,
    if_pos hshort, Socket.tryRead, htake, hdrop, ← List.take_add, List.drop_drop, hnegotiate,
    hreply]

/-! ### The acknowledgement -/

variable {obf : TcpObfuscation} {key send : Rc4}

theorem take_apply (key : Rc4) (text : List UInt8) (m : Nat) :
    (key.apply text).1.take m = (key.apply (text.take m)).1 ∧
      (key.apply text).1.drop m = ((key.skip (text.take m).length).apply (text.drop m)).1 := by
  have happend := apply_append key (text.take m) (text.drop m)
  rw [List.take_append_drop] at happend
  obtain hle | hlt := Nat.le_total m text.length
  · have hlen : (key.apply (text.take m)).1.length = m := by
      rw [length_apply, List.length_take, Nat.min_eq_left hle]
    rw [happend]
    exact ⟨List.take_left' hlen, List.drop_left' hlen⟩
  · rw [List.take_of_length_le hlt, List.drop_of_length_le hlt,
      List.take_of_length_le (by rw [length_apply]; exact hlt),
      List.drop_of_length_le (by rw [length_apply]; exact hlt)]
    exact ⟨rfl, rfl⟩

/-- A read of the whole acknowledgement, or of less. -/
theorem readAck_text (hrecv : obf.recvKey = some key) (hsend : obf.sendKey = some send)
    {pad payload : List UInt8} (hpad : pad.length ≤ 255) (calls : Nat) :
    let m := min 256 (arrived calls + 1)
    let text := (ackText pad payload).take m
    let taken := m - (6 + pad.length)
    (6 + pad.length ≤ m →
      readAck arrived obf ⟨(key.apply (ackText pad payload)).1, calls⟩ =
        .ok (.encryptedWithPrefix (key.skip text.length) send (payload.take taken),
          ⟨((key.skip text.length).apply (payload.drop taken)).1, calls + 1⟩)) ∧
      (m < 6 + pad.length →
        ∃ e, readAck arrived obf ⟨(key.apply (ackText pad payload)).1, calls⟩ = .error e) := by
  intro m text taken
  obtain ⟨htake, hdrop⟩ := take_apply key (ackText pad payload) m
  obtain ⟨hwhole, hpart⟩ := @handshake_take obf key hrecv pad payload hpad m
  have hne : (key.apply text).1 ≠ [] := by
    rw [← List.length_pos_iff, length_apply, List.length_take, length_ackText]
    omega
  rw [readAck, Socket.read]
  dsimp only
  rw [htake, hdrop, if_neg hne]
  constructor
  · intro hm
    rw [hwhole hm]
    dsimp only
    have hrest : (ackText pad payload).drop m = payload.drop taken := by
      rw [← Nat.add_sub_of_le hm, ← List.drop_drop, drop_ackText]
    rw [TcpObfuscation.takeKeys, hsend, hrest]
    dsimp only
    split_ifs with hnil
    · rw [hnil]
      rfl
    · rfl
  · intro hm
    obtain ⟨e, he⟩ := hpart hm
    rw [he]
    exact ⟨_, rfl⟩

/-- Where the stream stands after whatever was read as the acknowledgement. -/
theorem readAck_ok (hrecv : obf.recvKey = some key) {sock sock' : Socket} {stream : CryptStream}
    (h : readAck arrived obf sock = .ok (stream, sock')) :
    ∃ n, n + sock'.unread.length = sock.unread.length ∧ stream.recvKey = some (key.skip n) := by
  rw [readAck, Socket.read] at h
  dsimp only at h
  split_ifs at h with hnil
  split at h
  · cases h
  · rename_i obf' leftover hok
    have hkey := handshake_ok hrecv hok
    split at h
    · cases h
    · rename_i recvKey sendKey hkeys
      rw [TcpObfuscation.takeKeys, hkey] at hkeys
      cases hsend : obf'.sendKey with
      | none => simp [hsend] at hkeys
      | some send =>
        simp only [hsend, Option.some.injEq, Prod.mk.injEq] at hkeys
        obtain ⟨rfl, rfl⟩ := hkeys
        obtain ⟨hstream, rfl⟩ := Prod.mk.inj (Except.ok.inj h)
        refine ⟨(sock.unread.take (min 256 (arrived sock.calls + 1))).length, ?_, ?_⟩
        · dsimp only
          rw [← List.length_append, List.take_append_drop]
        · rw [← hstream]
          split_ifs <;> rfl

/-! ### What a stream serves -/

theorem serves_encrypted (recv send : Rc4) (prefixBytes rest : List UInt8) :
    Serves (.encryptedWithPrefix recv send prefixBytes) (recv.apply rest).1
      (prefixBytes ++ rest) := by
  intro calls w hrun hin
  have h := exec_invariant (fun w c w' h hs => inStep_step h c hs)
    (inStep_new recv send prefixBytes) hrun
  have hin' : w.incoming = (recv.apply (rest.take w.incoming.length)).1 :=
    (List.prefix_iff_eq_take.mp hin).trans (take_apply recv rest _).1
  have hplain : xorBytes w.incoming (recv.keystream w.incoming.length) =
      rest.take w.incoming.length :=
    calc xorBytes w.incoming (recv.keystream w.incoming.length)
        = (recv.apply w.incoming).1 := (apply_eq recv w.incoming).symm
      _ = (recv.apply (recv.apply (rest.take w.incoming.length)).1).1 :=
          congrArg (fun data => (recv.apply data).1) hin'
      _ = rest.take w.incoming.length := apply_apply recv _
  have hdelivered := h.delivered
  rw [hplain] at hdelivered
  by_cases hall : prefixBytes.length ≤ w.stream.prefixPos
  · rw [List.take_of_length_le hall] at hdelivered
    rw [hdelivered]
    refine ⟨List.prefix_append_right_inj prefixBytes |>.mpr (List.take_prefix _ _),
      fun hend _ => ?_⟩
    rw [hend, length_apply, List.take_length]
  · -- what is before the socket's bytes is not read out
    have hnone : w.incoming = [] := by
      by_contra hne
      exact hall (h.first hne)
    rw [hnone, List.length_nil, List.take_zero, List.append_nil] at hdelivered
    rw [hdelivered]
    exact ⟨(List.take_prefix _ _).trans (List.prefix_append _ _), fun _ h => absurd h hall⟩

/-- A stream without keys hands the bytes on. -/
structure Passed (prefixBytes : List UInt8) (w : World) : Prop where
  recv : w.stream.recvKey = none
  send : w.stream.sendKey = none
  start : w.stream.prefixBytes = prefixBytes
  delivered : w.delivered = prefixBytes.take w.stream.prefixPos ++ w.incoming
  first : w.incoming ≠ [] → prefixBytes.length ≤ w.stream.prefixPos

variable {prefixBytes : List UInt8} {w w' : World}

theorem passed_sent (h : Passed prefixBytes w) {s : CryptStream} (bytes : List UInt8)
    (hs : SameButPending w.stream s) : Passed prefixBytes (w.sent s bytes) := by
  obtain ⟨p, pos, rfl⟩ := hs
  exact ⟨h.recv, h.send, h.start, h.delivered, h.first⟩

theorem passed_flush (h : Passed prefixBytes w) {answers : List WriteAnswer} {inner : Poll Unit}
    (hs : step w (.flush answers inner) = some w') : Passed prefixBytes w' := by
  obtain ⟨hsame, -, -⟩ := pollFlush_spec w.stream answers inner
  rw [step] at hs
  split at hs
  · cases hs
  · rename_i s bytes r hne hf
    rw [hf] at hsame
    obtain rfl := Option.some.inj hs
    exact passed_sent h bytes hsame

theorem passed_read (h : Passed prefixBytes w) {room : Nat} {answer : ReadAnswer}
    (hs : step w (.read room answer) = some w') : Passed prefixBytes w' := by
  rw [step] at hs
  by_cases hp : w.stream.prefixPos < w.stream.prefixBytes.length
  · have hnone : w.incoming = [] := by
      by_contra hne
      have hfirst := h.first hne
      rw [← h.start] at hfirst
      omega
    rw [pollRead.eq_def, if_pos hp] at hs
    obtain rfl := Option.some.inj hs
    refine ⟨h.recv, h.send, h.start, ?_, fun hne => absurd hnone (by simpa using hne)⟩
    simp only [List.append_nil, List.take_add]
    rw [h.delivered, h.start, hnone]
    simp
  · have hall : prefixBytes.length ≤ w.stream.prefixPos := by
      rw [← h.start]
      omega
    rw [pollRead.eq_def, if_neg hp] at hs
    cases answer with
    | pending =>
      obtain rfl := Option.some.inj hs
      simpa using h
    | failed => cases hs
    | got bytes =>
      simp only [h.recv] at hs
      obtain rfl := Option.some.inj hs
      refine ⟨h.recv, h.send, h.start, ?_, fun _ => hall⟩
      rw [h.delivered, List.append_assoc]

theorem passed_step (h : Passed prefixBytes w) (c : Call) (hs : step w c = some w') :
    Passed prefixBytes w' := by
  cases c with
  | write buf before after =>
    have hwrite : pollWrite w.stream buf before after = (w.stream, pollWritePlain buf before) := by
      rw [pollWrite, h.send]
    rw [step, hwrite] at hs
    split at hs
    · cases hs
    all_goals
      rename_i heq
      obtain ⟨rfl, -⟩ := Prod.mk.inj heq
      obtain rfl := Option.some.inj hs
      exact ⟨h.recv, h.send, h.start, h.delivered, h.first⟩
  | flush answers inner => exact passed_flush h hs
  | shutdown answers inner => exact passed_flush h hs
  | read room answer => exact passed_read h hs

theorem serves_plain (prefixBytes rest : List UInt8) :
    Serves (.plainWithPrefix prefixBytes) rest (prefixBytes ++ rest) := by
  intro calls w hrun hin
  have hstart : Passed prefixBytes ⟨.plainWithPrefix prefixBytes, [], [], [], []⟩ :=
    ⟨rfl, rfl, rfl, rfl, fun hne => absurd rfl hne⟩
  have h := exec_invariant (fun w c w' h hs => passed_step h c hs) hstart hrun
  by_cases hall : prefixBytes.length ≤ w.stream.prefixPos
  · rw [h.delivered, List.take_of_length_le hall]
    exact ⟨(List.prefix_append_right_inj prefixBytes).mpr hin, fun hend _ => by rw [hend]⟩
  · have hnone : w.incoming = [] := by
      by_contra hne
      exact hall (h.first hne)
    rw [h.delivered, hnone, List.append_nil]
    exact ⟨(List.take_prefix _ _).trans (List.prefix_append _ _), fun _ hpos => absurd hpos hall⟩

/-! ### The whole handshake -/

theorem received_inj {i j : Nat} (hi : received arrived i < DH_REST_MIN)
    (hi' : DH_REST_MIN ≤ received arrived (i + 1)) (hj : received arrived j < DH_REST_MIN)
    (hj' : DH_REST_MIN ≤ received arrived (j + 1)) : i = j := by
  obtain hlt | heq | hgt := Nat.lt_trichotomy i j
  · have : received arrived (i + 1) ≤ received arrived j := received_mono hlt
    omega
  · exact heq
  · have : received arrived (j + 1) ≤ received arrived i := received_mono hgt
    omega

/-- A key that has taken bytes of the hello's padding does not stand on a byte of the payload. -/
theorem skip_ne (key : Rc4) {m n : Nat} (hlt : m < n) (hle : n ≤ m + 15) :
    key.skip m ≠ key.skip n := by
  intro h
  have hx := congrArg Rc4.x h
  rw [x_skip, x_skip] at hx
  have hmod := congrArg UInt8.toNat (add_left_cancel hx)
  rw [UInt8.toNat_ofNat', UInt8.toNat_ofNat'] at hmod
  omega

theorem yields_client_iff (md5 : List UInt8 → Digest) (arrived : Arrivals) (random : Random)
    (c : Client) :
    Yields md5 c random (makeStream md5 arrived random (c.reply md5) true ⟨c.hello, 0⟩) ↔
      Whole arrived c.padding.length c.ackPadding.length := by
  obtain ⟨j, obf, send, hlt, hge, hrecv, hsend, hmake⟩ :=
    @makeStream_eq md5 arrived random c
  have hrest := c.length_rest
  set key := c.sendKey md5 (dhPowMod random.bPriv) with hkey
  set n := received arrived (j + 1) + arrived (j + 2) with hn
  rw [hmake]
  have hsame : ∀ {i}, received arrived i < DH_REST_MIN →
      DH_REST_MIN ≤ received arrived (i + 1) → i = j := fun hi hi' => received_inj hi hi' hlt hge
  obtain hpart | hall := Nat.lt_or_ge n c.rest.length
  · refine iff_of_false ?_ ?_
    · rintro ⟨stream, sock, hok, -, taken, htaken, hstands⟩
      obtain ⟨m, hm, hstands'⟩ := readAck_ok hrecv hok
      rw [List.length_append, length_apply, length_ackText, List.length_drop] at hm
      have heq := Option.some.inj (hstands.symm.trans hstands')
      have hpadding := c.padding_le
      have hn' : DH_REST_MIN ≤ n := hge.trans (Nat.le_add_right _ _)
      exact skip_ne key (by omega) (by omega) heq
    · rintro ⟨i, hi, hi', hpadding, -⟩
      obtain rfl := hsame hi hi'
      omega
  · rw [List.drop_of_length_le hall, List.nil_append]
    obtain ⟨hwhole, hless⟩ :=
      @readAck_text arrived obf key send hrecv hsend _ c.payload c.ackPadding_le (j + 3)
    constructor
    · rintro ⟨stream, sock, hok, -, -⟩
      refine ⟨j, hlt, hge, hrest ▸ hall, ?_⟩
      by_contra hm
      obtain ⟨e, he⟩ := hless (Nat.lt_of_not_le hm)
      rw [he] at hok
      cases hok
    · rintro ⟨i, hi, hi', -, hm⟩
      obtain rfl := hsame hi hi'
      set m := min 256 (arrived (i + 3) + 1)
      set taken := m - (6 + c.ackPadding.length) with htaken
      refine ⟨_, _, hwhole hm, ?_, min taken c.payload.length, ?_, ?_⟩
      · have h := serves_encrypted (key.skip ((ackText c.ackPadding c.payload).take m).length)
          send (c.payload.take taken) (c.payload.drop taken)
        rw [List.take_append_drop] at h
        exact h
      · rw [length_apply, List.length_drop]
        omega
      · have hlen : ((ackText c.ackPadding c.payload).take m).length =
            6 + c.ackPadding.length + min taken c.payload.length := by
          rw [List.length_take, length_ackText]
          omega
        rw [CryptStream.encryptedWithPrefix, hlen]

/-- A client whose first byte is that of a plain connection. -/
structure PlainClient where
  marker : UInt8
  rest : List UInt8
  marker_mem : marker ∈ PLAIN_MARKERS

/-- The handshake yields the client's payload exactly when the reads before the answer have the
whole hello and the one behind it the whole acknowledgement; a plain stream is handed on. -/
theorem yields_iff_whole (md5 : List UInt8 → Digest) (arrived : Arrivals) (random : Random) :
    (∀ c : Client, Yields md5 c random
        (makeStream md5 arrived random (c.reply md5) true ⟨c.hello, 0⟩) ↔
      Whole arrived c.padding.length c.ackPadding.length) ∧
    ∀ (c : PlainClient) (reply : List UInt8 → List UInt8), ∃ stream sock,
      makeStream md5 arrived random reply true ⟨c.marker :: c.rest, 0⟩ = .ok (stream, sock) ∧
        Serves stream sock.unread (c.marker :: c.rest) := by
  refine ⟨yields_client_iff md5 arrived random, ?_⟩
  intro c reply
  have hfirst : Socket.read arrived ⟨c.marker :: c.rest, 0⟩ 1 = ([c.marker], ⟨c.rest, 1⟩) := by
    rw [Socket.read, Nat.min_eq_left (Nat.le_add_left _ _)]
    rfl
  refine ⟨.plainWithPrefix [c.marker], ⟨c.rest, 1⟩, ?_, serves_plain [c.marker] c.rest⟩
  rw [makeStream, hfirst]
  simp only [Bool.not_true, Bool.false_eq_true, if_false, if_pos c.marker_mem]

def sampleRandom : Random := ⟨[5], [], by decide⟩

/-- Four bytes of padding, and a frame behind the acknowledgement. -/
def sampleClient : Client :=
  ⟨0x7A, [7], [0xEE, 0xEE, 0xEE, 0xEE], [], [0xE3, 0x05, 0x00, 0x00, 0x00, 0x38, 0x68, 0x69],
    by decide, by decide, by decide⟩

/-- The padding arrives a moment after the rest of the hello; or the acknowledgement arrives
in two segments of five and nine bytes. -/
theorem not_yields_segments :
    (¬ ∃ md5, Yields md5 sampleClient sampleRandom (makeStream md5
      (fun i => [0, 96, 0, 17].getD i 0) sampleRandom (sampleClient.reply md5) true
        ⟨sampleClient.hello, 0⟩)) ∧
    ¬ ∃ md5, Yields md5 sampleClient sampleRandom (makeStream md5
      (fun i => [0, 100, 0, 4].getD i 0) sampleRandom (sampleClient.reply md5) true
        ⟨sampleClient.hello, 0⟩) := by
  constructor
  · rintro ⟨md5, hyields⟩
    obtain ⟨j, hj, hj', hpadding, -⟩ := (yields_client_iff md5 _ sampleRandom _).mp hyields
    obtain rfl : j = 0 := received_inj hj hj' (by decide) (by decide)
    revert hpadding
    decide
  · rintro ⟨md5, hyields⟩
    obtain ⟨j, hj, hj', -, hack⟩ := (yields_client_iff md5 _ sampleRandom _).mp hyields
    obtain rfl : j = 0 := received_inj hj hj' (by decide) (by decide)
    revert hack
    decide

end Ed2kServer.Server.ObfuscatedConn
