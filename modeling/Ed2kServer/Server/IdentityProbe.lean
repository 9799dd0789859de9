import Ed2kServer.Proto.FrameCodec
import Ed2kServer.Server.ObfuscatedConn
import Ed2kServer.Slab.Record

namespace Ed2kServer.Server.IdentityProbe

open Ed2kServer.Lib.LittleEndian Ed2kServer.Proto.DhHandshake Ed2kServer.Proto.FrameCodec
  Ed2kServer.Proto.Obfuscation Ed2kServer.Server.ObfuscatedConn Ed2kServer.Slab.Record

def OP_HELLO : UInt8 := 0x01

def OP_HELLOANSWER : UInt8 := 0x4C

def PROTO_EMULE : UInt8 := 0xC5

def CT_NAME : UInt8 := 0x01

def CT_PORT : UInt8 := 0x0F

def CT_VERSION : UInt8 := 0x11

def CT_EMULE_VERSION : UInt8 := 0xFB

def PROBE_EMULE_VERSION : Nat := 50 <<< 10

def EDONKEY_VERSION : Nat := 60

def PROBE_NAME : Str := "ed2k-server-probe".toList

def MAX_FRAMES : Nat := 8

def MAX_SKIP : Nat := 64 * 1024

variable (md5 : List UInt8 → Digest) (arrived : Arrivals)

/-- The first key part and the first marker drawn that will do. -/
structure Draws where
  keypart : UInt32
  marker : UInt8
  keypart_ne : keypart ≠ 0
  marker_notMem : marker ∉ PLAIN_MARKERS

def derive (peerUserHash : UserHash) (keypart : UInt32) (magic : UInt8) : Rc4 :=
  .new (md5 (peerUserHash.toList ++ magic :: leBytes 4 keypart.toNat)) true

structure ClientCrypt where
  send : Rc4
  recv : Rc4

/-- The keys and the opening bytes. -/
def ClientCrypt.start (d : Draws) (peerUserHash : UserHash) : ClientCrypt × List UInt8 :=
  let send := derive md5 peerUserHash d.keypart MAGIC_VALUE_REQUESTER
  let body := send.apply (leBytes 4 MAGIC_SYNC ++ [0, 0, 0])
  (⟨body.2, derive md5 peerUserHash d.keypart MAGIC_VALUE_SERVER⟩,
    d.marker :: (leBytes 4 d.keypart.toNat ++ body.1))

def stringTag (id : UInt8) (value : Str) : List UInt8 :=
  0x82 :: id :: (leBytes 2 (utf8 value).length ++ utf8 value)

def intTag (id : UInt8) (value : Nat) : List UInt8 := 0x83 :: id :: leBytes 4 value

def buildHello (userHash : UserHash) (ourId : UInt32) (ourPort : UInt16) : List UInt8 :=
  let tags := stringTag CT_NAME PROBE_NAME ++ intTag CT_VERSION EDONKEY_VERSION ++
    intTag CT_PORT ourPort.toNat ++ intTag CT_EMULE_VERSION PROBE_EMULE_VERSION
  writeFrame PROTO_EDONKEY OP_HELLO (0x10 :: (userHash.toList ++ leBytes 4 ourId.toNat ++
    leBytes 2 ourPort.toNat ++ leBytes 4 4 ++ tags ++ leBytes 4 0 ++ leBytes 2 0))

inductive Connect
  | accepted
  | refused
  | unreachable
  | timeout
  deriving DecidableEq

inductive Write
  | done
  | failed
  | timeout
  deriving DecidableEq

/-- What comes behind the last byte. -/
inductive Ending
  | closed
  | failed
  | stalled
  deriving DecidableEq

/-- What the probe meets. -/
structure Peer where
  connect : Connect
  openingWrite : Write
  helloWrite : Write
  bytes : List UInt8
  ending : Ending

/-- Exactly so many bytes, in however many reads they come. -/
def readExact (ending : Ending) (n : Nat) (sock : Socket) : Except Ending (List UInt8) × Socket :=
  if n ≤ sock.unread.length then
    (.ok (sock.unread.take n), { sock with unread := sock.unread.drop n })
  else (.error ending, { sock with unread := [] })

/-- Push what was read through the key stream, where there is one. -/
def decrypt (crypt : Option Rc4) (bytes : List UInt8) : List UInt8 × Option Rc4 :=
  match crypt with
  | none => (bytes, none)
  | some c => ((c.apply bytes).1, some (c.apply bytes).2)

theorem length_decrypt (crypt : Option Rc4) (bytes : List UInt8) :
    (decrypt crypt bytes).1.length = bytes.length := by
  cases crypt with
  | none => rfl
  | some c => exact length_apply c bytes

/-- The peer's answer to the opening. -/
def readHandshake (ending : Ending) (recv : Rc4) (sock : Socket) :
    Except String (Option Rc4) × Socket :=
  match readExact ending 6 sock with
  | (.error .stalled, sock) => (.error "no crypt answer before timeout", sock)
  | (.error _, sock) => (.error "peer closed during obfuscated handshake", sock)
  | (.ok head, sock) =>
    let plain := decrypt (some recv) head
    if ofLeBytes (plain.1.take 4) ≠ MAGIC_SYNC then (.error "obfuscated handshake failed", sock)
    else if plain.1.getD 4 0 ≠ 0 then
      (.error "peer chose an encryption method we do not implement", sock)
    else
      let pad := (plain.1.getD 5 0).toNat
      if 0 < pad then
        match readExact ending pad sock with
        | (.error _, sock) => (.error "truncated obfuscated padding", sock)
        | (.ok sink, sock) => (.ok (decrypt plain.2 sink).2, sock)
      else (.ok plain.2, sock)

def headError (ending : Ending) (nothingSkipped : Bool) (got : List UInt8) : String :=
  match ending with
  | .closed =>
    if got = [] ∧ nothingSkipped then "peer closed without sending a byte"
    else "peer closed mid-answer"
  | .failed => "read failed"
  | .stalled => "no answer before timeout"

/-- The six bytes of a frame's head, as they come. -/
def readHead (ending : Ending) (nothingSkipped : Bool) (got : List UInt8) (crypt : Option Rc4)
    (sock : Socket) : Except String (List UInt8 × Option Rc4) × Socket :=
  if _hlt : got.length < 6 then
    let more := sock.read arrived (6 - got.length)
    if _h : more.1 = [] then (.error (headError ending nothingSkipped got), more.2)
    else
      let plain := decrypt crypt more.1
      readHead ending nothingSkipped (got ++ plain.1) plain.2 more.2
  else (.ok (got, crypt), sock)
termination_by 6 - got.length
decreasing_by
  have hpos : 0 < (sock.read arrived (6 - got.length)).1.length := List.length_pos_iff.mpr _h
  rw [List.length_append, length_decrypt]
  omega

/-- Where the hash stands in the body of a hello. -/
def hashAt (proto opcode : UInt8) : Except String (Option Nat) :=
  if proto = PROTO_EDONKEY ∧ opcode = OP_HELLOANSWER then .ok (some 0)
  else if proto = PROTO_EDONKEY ∧ opcode = OP_HELLO then .ok (some 1)
  else if proto = PROTO_EDONKEY ∨ proto = PROTO_EMULE ∨ proto = PROTO_PACKED then .ok none
  else .error "not an eD2k answer"

/-- The sixteen bytes that the text begins with. -/
def hashOf (bytes : List UInt8) : UserHash := Vector.ofFn fun i => bytes.getD i 0

/-- The hash of a hello, behind `skip` bytes of its body. -/
def readHash (ending : Ending) (skip remaining : Nat) (crypt : Option Rc4) (sock : Socket) :
    Except String UserHash × Socket :=
  if remaining < skip + 16 then (.error "answer too short", sock)
  else
    match readExact ending (skip + 16) sock with
    | (.error _, sock) => (.error "truncated answer", sock)
    | (.ok buf, sock) => (.ok (hashOf ((decrypt crypt buf).1.drop skip)), sock)

/-- What follows a head: the hash, or a frame to skip and the `next` turn. -/
def readFrame (ending : Ending)
    (next : Nat → Option Rc4 → Socket → Except String UserHash × Socket) (skipped : Nat)
    (head : List UInt8) (crypt : Option Rc4) (sock : Socket) : Except String UserHash × Socket :=
  let len := ofLeBytes ((head.drop 1).take 4)
  if len = 0 ∨ MAX_SKIP < len then (.error "implausible frame length", sock)
  else
    match hashAt (head.getD 0 0) (head.getD 5 0) with
    | .error e => (.error e, sock)
    | .ok (some skip) => readHash ending skip (len - 1) crypt sock
    | .ok none =>
      if MAX_SKIP < skipped + (len - 1) then
        (.error "too much preamble before an answer", sock)
      else
        match readExact ending (len - 1) sock with
        | (.error _, sock) => (.error "truncated while skipping a frame", sock)
        | (.ok sink, sock) => next (skipped + (len - 1)) (decrypt crypt sink).2 sock

/-- Read frames until the right one; at most so many more. -/
def walk (ending : Ending) : Nat → Nat → Option Rc4 → Socket → Except String UserHash × Socket
  | 0, _, _, sock => (.error "no hello answer within the first frames", sock)
  | frames + 1, skipped, crypt, sock =>
    match readHead arrived ending (skipped == 0) [] crypt sock with
    | (.error e, sock) => (.error e, sock)
    | (.ok (head, crypt), sock) => readFrame ending (walk ending frames) skipped head crypt sock

/-- The answer of the probe, what it has sent, and what it has left unread. -/
structure Outcome where
  result : Except String UserHash
  sent : List UInt8
  sock : Socket

/-- The hello, once the handshake is complete, and the walk to the answer. -/
def askHello (p : Peer) (opening hello : List UInt8) (recv : Option Rc4) (sock : Socket) :
    Outcome :=
  match p.helloWrite with
  | .failed => ⟨.error "write failed", opening, sock⟩
  | .timeout => ⟨.error "write timeout", opening, sock⟩
  | .done =>
    let answer := walk arrived p.ending MAX_FRAMES 0 recv sock
    ⟨answer.1, opening ++ hello, answer.2⟩

def probeIdentityHash (p : Peer) (d : Draws) (expectedUserHash ourUserHash : UserHash)
    (ourId : UInt32) (ourPort : UInt16) (obfuscate : Bool) : Outcome :=
  let sock : Socket := ⟨p.bytes, 0⟩
  let hello := buildHello ourUserHash ourId ourPort
  match p.connect with
  | .refused => ⟨.error "connect refused", [], sock⟩
  | .unreachable => ⟨.error "connect unreachable", [], sock⟩
  | .timeout => ⟨.error "connect timeout", [], sock⟩
  | .accepted =>
    if obfuscate then
      let (crypt, opening) := ClientCrypt.start md5 d expectedUserHash
      match p.openingWrite with
      | .failed => ⟨.error "write failed", [], sock⟩
      | .timeout => ⟨.error "write timeout", [], sock⟩
      | .done =>
        match readHandshake p.ending crypt.recv sock with
        | (.error e, sock) => ⟨.error e, opening, sock⟩
        | (.ok recv, sock) => askHello arrived p opening (crypt.send.apply hello).1 recv sock
    else askHello arrived p [] hello none sock

/-- A hello or the answer to one. -/
def isHello (proto opcode : UInt8) : Bool :=
  proto == PROTO_EDONKEY && (opcode == OP_HELLO || opcode == OP_HELLOANSWER)

/-- A frame of a protocol that is walked past. -/
structure OtherFrame where
  proto : UInt8
  opcode : UInt8
  body : List UInt8
  fits : body.length + 1 < 2 ^ 32
  known : proto ∈ [PROTO_EDONKEY, PROTO_EMULE, PROTO_PACKED]
  other : isHello proto opcode = false

def OtherFrame.bytes (f : OtherFrame) : List UInt8 := writeFrame f.proto f.opcode f.body

/-- The frame that carries the hash: the answer, or a hello with the size of the hash before it. -/
inductive Hello
  | answer (hash : UserHash) (rest : List UInt8)
  | hello (size : UInt8) (hash : UserHash) (rest : List UInt8)

namespace Hello

def opcode : Hello → UInt8
  | .answer _ _ => OP_HELLOANSWER
  | .hello _ _ _ => OP_HELLO

def body : Hello → List UInt8
  | .answer hash rest => hash.toList ++ rest
  | .hello size hash rest => size :: (hash.toList ++ rest)

def hash : Hello → UserHash
  | .answer hash _ => hash
  | .hello _ hash _ => hash

def bytes (h : Hello) : List UInt8 := writeFrame PROTO_EDONKEY h.opcode h.body

end Hello

/-- The first hello of the text, whatever its length field says, carries this hash. -/
inductive FirstHello (hash : UserHash) : List UInt8 → Prop
  | here (len : List UInt8) (hlen : len.length = 4) (h : Hello) (heq : h.hash = hash)
    (rest : List UInt8) :
    FirstHello hash (PROTO_EDONKEY :: (len ++ h.opcode :: (h.body ++ rest)))
  | skip (f : OtherFrame) {text : List UInt8} (h : FirstHello hash text) :
    FirstHello hash (f.bytes ++ text)

section Reading

variable {crypt : Option Rc4} {bytes bytes' : List UInt8}

/-- What comes later is pushed through the key stream where the earlier bytes have left it. -/
theorem decrypt_append : (decrypt crypt (bytes ++ bytes')).1 =
    (decrypt crypt bytes).1 ++ (decrypt (decrypt crypt bytes).2 bytes').1 := by
  cases crypt with
  | none => rfl
  | some c =>
    simp only [decrypt, apply_append, apply_snd]

theorem decrypt_append_snd : (decrypt crypt (bytes ++ bytes')).2 =
    (decrypt (decrypt crypt bytes).2 bytes').2 := by
  cases crypt with
  | none => rfl
  | some c => simp only [decrypt, apply_snd, List.length_append, skip_add]

theorem decrypt_nil : decrypt crypt [] = ([], crypt) := by
  cases crypt <;> rfl

/-- The head is decrypted once, in whatever pieces it comes. -/
theorem readHead_eq (arrived : Arrivals) (ending : Ending) (nothingSkipped : Bool)
    (crypt : Option Rc4) {got : List UInt8} (sock : Socket) (hgot : got.length ≤ 6) :
    ∃ e calls, readHead arrived ending nothingSkipped got crypt sock =
      if 6 ≤ got.length + sock.unread.length then
        (.ok (got ++ (decrypt crypt (sock.unread.take (6 - got.length))).1,
          (decrypt crypt (sock.unread.take (6 - got.length))).2),
          ⟨sock.unread.drop (6 - got.length), calls⟩)
      else (.error e, ⟨[], calls⟩) := by
  induction hn : 6 - got.length using Nat.strong_induction_on generalizing got crypt sock with
  | _ n ih =>
    rw [readHead.eq_def]
    by_cases hsix : got.length < 6
    · rw [dif_pos hsix, hn]
      set k := min n (arrived sock.calls + 1) with hk
      have hread : sock.read arrived n =
          (sock.unread.take k, ⟨sock.unread.drop k, sock.calls + 1⟩) := by
        rw [Socket.read, ← hk]
      simp only [hread]
      by_cases hnil : sock.unread.take k = []
      · have hempty : sock.unread = [] :=
          (List.take_eq_nil_iff.mp hnil).resolve_left (by omega)
        have hshort : ¬ 6 ≤ got.length + sock.unread.length := by
          rw [hempty]
          exact Nat.not_le.mpr hsix
        refine ⟨headError ending nothingSkipped got, sock.calls + 1, ?_⟩
        rw [dif_pos hnil, if_neg hshort, hempty, List.drop_nil]
      · have hpos := List.length_pos_iff.mpr hnil
        have hlen : (got ++ (decrypt crypt (sock.unread.take k)).1).length =
            got.length + min k sock.unread.length := by
          rw [List.length_append, length_decrypt, List.length_take]
        rw [List.length_take] at hpos
        obtain ⟨e, calls, hmore⟩ := @ih (n - min k sock.unread.length) (by omega)
          (decrypt crypt (sock.unread.take k)).2 (got ++ (decrypt crypt (sock.unread.take k)).1)
          ⟨sock.unread.drop k, sock.calls + 1⟩ (by omega) (by omega)
        refine ⟨e, calls, ?_⟩
        rw [dif_neg hnil, hmore, hlen, List.length_drop]
        by_cases hcond : 6 ≤ got.length + sock.unread.length
        · have hk' : min k sock.unread.length = k := by omega
          have htake : sock.unread.take n =
              sock.unread.take k ++ (sock.unread.drop k).take (n - k) := by
            rw [← List.take_add, Nat.add_sub_of_le (by omega)]
          rw [if_pos hcond, if_pos (by omega), hk', htake, decrypt_append, decrypt_append_snd,
            List.append_assoc, List.drop_drop, Nat.add_sub_of_le (by omega)]
        · rw [if_neg hcond, if_neg (by omega)]
    · obtain rfl : n = 0 := by omega
      refine ⟨"", sock.calls, ?_⟩
      rw [dif_neg hsix, List.take_zero, List.drop_zero, decrypt_nil, List.append_nil]
      exact (if_pos (by omega)).symm

end Reading

section Views

variable (arrived : Arrivals) (ending : Ending) {crypt : Option Rc4} {sock : Socket}
  {text : List UInt8} {n : Nat}

/-- What is unread says this. -/
def View (crypt : Option Rc4) (sock : Socket) (text : List UInt8) : Prop :=
  (decrypt crypt sock.unread).1 = text

theorem view_plain (bytes : List UInt8) (calls : Nat) : View none ⟨bytes, calls⟩ bytes := rfl

theorem View.length (h : View crypt sock text) : sock.unread.length = text.length := by
  rw [← h, length_decrypt]

theorem View.take (h : View crypt sock text) (n : Nat) :
    (decrypt crypt (sock.unread.take n)).1 = text.take n ∧
      (decrypt (decrypt crypt (sock.unread.take n)).2 (sock.unread.drop n)).1 = text.drop n := by
  have happ : (decrypt crypt (sock.unread.take n)).1 ++
      (decrypt (decrypt crypt (sock.unread.take n)).2 (sock.unread.drop n)).1 = text := by
    rw [← decrypt_append, List.take_append_drop, h]
  have hlen : (decrypt crypt (sock.unread.take n)).1.length = (text.take n).length := by
    rw [length_decrypt, List.length_take, List.length_take, h.length]
  exact List.append_inj (happ.trans (List.take_append_drop n text).symm) hlen

theorem View.readExact (h : View crypt sock text) (hn : n ≤ text.length) :
    ∃ buf sock', readExact ending n sock = (.ok buf, sock') ∧
      (decrypt crypt buf).1 = text.take n ∧ View (decrypt crypt buf).2 sock' (text.drop n) := by
  refine ⟨_, _, if_pos (h.length ▸ hn), (h.take n).1, (h.take n).2⟩

theorem readExact_short (h : View crypt sock text) (hn : text.length < n) :
    readExact ending n sock = (.error ending, { sock with unread := [] }) := by
  rw [readExact, if_neg (by rw [h.length]; omega)]

theorem View.readHead (nothingSkipped : Bool) (h : View crypt sock text) (hsix : 6 ≤ text.length) :
    ∃ crypt' sock', readHead arrived ending nothingSkipped [] crypt sock =
      (.ok (text.take 6, crypt'), sock') ∧ View crypt' sock' (text.drop 6) := by
  obtain ⟨e, calls, hread⟩ :=
    @readHead_eq arrived ending nothingSkipped crypt [] sock (Nat.zero_le 6)
  rw [if_pos (by rw [h.length]; simpa using hsix)] at hread
  refine ⟨(decrypt crypt (sock.unread.take 6)).2, ⟨sock.unread.drop 6, calls⟩, ?_, (h.take 6).2⟩
  rw [hread, ← (h.take 6).1]
  rfl

theorem readHead_short (nothingSkipped : Bool) (h : View crypt sock text)
    (hsix : text.length < 6) : ∃ e sock', readHead arrived ending nothingSkipped [] crypt sock =
      (.error e, sock') ∧ sock'.unread = [] := by
  obtain ⟨e, calls, hread⟩ :=
    @readHead_eq arrived ending nothingSkipped crypt [] sock (Nat.zero_le 6)
  rw [if_neg (by rw [h.length]; simpa using hsix)] at hread
  exact ⟨e, _, hread, rfl⟩

end Views

theorem head_split {head : List UInt8} (h : head.length = 6) :
    head = head.getD 0 0 :: ((head.drop 1).take 4 ++ [head.getD 5 0]) := by
  match head, h with
  | [_, _, _, _, _, _], _ => rfl

theorem hashAt_some {proto opcode : UInt8} {skip : Nat} (h : hashAt proto opcode = .ok (some skip)) :
    proto = PROTO_EDONKEY ∧ (opcode = OP_HELLOANSWER ∧ skip = 0 ∨ opcode = OP_HELLO ∧ skip = 1) := by
  rw [hashAt] at h
  split_ifs at h with hanswer hhello
  · cases h
    exact ⟨hanswer.1, Or.inl ⟨hanswer.2, rfl⟩⟩
  · cases h
    exact ⟨hhello.1, Or.inr ⟨hhello.2, rfl⟩⟩
  · cases h

theorem hashAt_none {proto opcode : UInt8} : hashAt proto opcode = .ok none ↔
    proto ∈ [PROTO_EDONKEY, PROTO_EMULE, PROTO_PACKED] ∧ isHello proto opcode = false := by
  simp only [hashAt, isHello, List.mem_cons, List.not_mem_nil, or_false, Bool.and_eq_false_iff,
    Bool.or_eq_false_iff, beq_eq_false_iff_ne]
  split_ifs with hanswer hhello hknown
  · simp [hanswer]
  · simp [hhello]
  · simp only [hknown, true_and, true_iff]
    tauto
  · simp [hknown]

theorem toList_hashOf {bytes : List UInt8} (h : bytes.length = 16) :
    (hashOf bytes).toList = bytes := by
  rw [hashOf, Vector.toList_ofFn]
  refine List.ext_getElem (by simp [h]) fun i hi hi' => ?_
  rw [List.getElem_ofFn, List.getD_eq_getElem _ _ hi']

theorem hashOf_toList (hash : UserHash) (rest : List UInt8) : hashOf (hash.toList ++ rest) = hash := by
  ext i hi
  have hlen : i < hash.toList.length := by simpa using hi
  rw [hashOf, Vector.getElem_ofFn, List.getD_append _ _ _ _ hlen, List.getD_eq_getElem _ _ hlen,
    Vector.getElem_toList]

section Walks

variable (arrived : Arrivals) (ending : Ending) (frames skipped : Nat) {crypt : Option Rc4}
  {sock : Socket} {text : List UInt8}

/-- A read of the hash that comes to an end has read the first hello. -/
theorem firstHello_here {head rest : List UInt8} {skip : Nat} (hhead : head.length = 6)
    (hat : hashAt (head.getD 0 0) (head.getD 5 0) = .ok (some skip))
    (hrest : skip + 16 ≤ rest.length) :
    FirstHello (hashOf ((rest.take (skip + 16)).drop skip)) (head ++ rest) := by
  obtain ⟨hproto, hop⟩ := hashAt_some hat
  have hlen : ((rest.take (skip + 16)).drop skip).length = 16 := by
    rw [List.length_drop, List.length_take]
    omega
  have hhash := toList_hashOf hlen
  have hfield : ((head.drop 1).take 4).length = 4 := by
    rw [List.length_take, List.length_drop]
    omega
  have hsplit := head_split hhead
  rw [hproto] at hsplit
  obtain ⟨hopcode, rfl⟩ | ⟨hopcode, rfl⟩ := hop
  · have hhere := FirstHello.here _ hfield (.answer (hashOf (rest.take 16)) []) rfl (rest.drop 16)
    have hhash : (hashOf (rest.take 16)).toList = rest.take 16 := toList_hashOf (by simpa using hlen)
    simp only [Hello.opcode, Hello.body, hhash, List.append_nil, List.take_append_drop] at hhere
    rw [hsplit, hopcode, List.cons_append, List.append_assoc]
    exact hhere
  · cases rest with
    | nil => exact absurd hrest (by decide)
    | cons size rest =>
      have hhere := FirstHello.here _ hfield (.hello size (hashOf (rest.take 16)) []) rfl
        (rest.drop 16)
      have hhash : (hashOf (rest.take 16)).toList = rest.take 16 :=
        toList_hashOf (by simpa using hlen)
      simp only [Hello.opcode, Hello.body, hhash, List.append_nil, List.cons_append,
        List.take_append_drop] at hhere
      rw [hsplit, hopcode, List.cons_append, List.append_assoc]
      exact hhere

theorem View.readHash (skip remaining : Nat) (h : View crypt sock text) :
    (∃ e sock', readHash ending skip remaining crypt sock = (.error e, sock') ∧
      sock.unread.length ≤ sock'.unread.length + (skip + 16)) ∨
    ∃ sock', readHash ending skip remaining crypt sock =
        (.ok (hashOf ((text.take (skip + 16)).drop skip)), sock') ∧ skip + 16 ≤ text.length ∧
      sock.unread.length ≤ sock'.unread.length + (skip + 16) := by
  rw [IdentityProbe.readHash]
  by_cases hshort : remaining < skip + 16
  · rw [if_pos hshort]
    exact Or.inl ⟨_, sock, rfl, Nat.le_add_right _ _⟩
  · rw [if_neg hshort]
    by_cases hlen : skip + 16 ≤ text.length
    · obtain ⟨buf, sock', hread, hbuf, h'⟩ := View.readExact ending h hlen
      have hleft := h'.length
      rw [List.length_drop] at hleft
      rw [hread]
      exact Or.inr ⟨sock', by rw [← hbuf], hlen, by rw [h.length]; omega⟩
    · rw [readExact_short ending h (Nat.lt_of_not_le hlen)]
      exact Or.inl ⟨_, _, rfl, by rw [h.length]; simp; omega⟩

/-- A frame that is no hello, as its head and its body. -/
theorem other_of_head {head body : List UInt8} (hhead : head.length = 6)
    (hat : hashAt (head.getD 0 0) (head.getD 5 0) = .ok none)
    (hlen : ofLeBytes ((head.drop 1).take 4) = body.length + 1) :
    ∃ f : OtherFrame, f.bytes = head ++ body ∧ f.body = body := by
  obtain ⟨hknown, hother⟩ := hashAt_none.mp hat
  have hfield : ((head.drop 1).take 4).length = 4 := by
    rw [List.length_take, List.length_drop]
    omega
  have hfits := ofLeBytes_lt ((head.drop 1).take 4)
  rw [hfield, hlen] at hfits
  refine ⟨⟨head.getD 0 0, head.getD 5 0, body, hfits, hknown, hother⟩, ?_, rfl⟩
  have hle := leBytes_ofLeBytes ((head.drop 1).take 4)
  rw [hfield, hlen] at hle
  rw [OtherFrame.bytes, writeFrame, hle]
  conv_rhs => rw [head_split hhead, List.cons_append, List.append_assoc]
  rfl

/-- A frame ends the walk, or it is skipped. -/
theorem readFrame_turn (next : Nat → Option Rc4 → Socket → Except String UserHash × Socket)
    {head : List UInt8} (hhead : head.length = 6) (hskipped : skipped ≤ MAX_SKIP)
    (h : View crypt sock text) :
    (∃ result sock', readFrame ending next skipped head crypt sock = (result, sock') ∧
      (∀ hash, result = .ok hash → FirstHello hash (head ++ text)) ∧
      sock.unread.length ≤ sock'.unread.length + (MAX_SKIP - skipped) + 17) ∨
    ∃ (f : OtherFrame) (rest : List UInt8) (crypt' : Option Rc4) (sock' : Socket),
      head ++ text = f.bytes ++ rest ∧ skipped + f.body.length ≤ MAX_SKIP ∧
        View crypt' sock' rest ∧ readFrame ending next skipped head crypt sock =
          next (skipped + f.body.length) crypt' sock' := by
  have hlength := h.length
  rw [readFrame]
  generalize hlen : ofLeBytes ((head.drop 1).take 4) = len
  by_cases himplausible : len = 0 ∨ MAX_SKIP < len
  · rw [if_pos himplausible]
    exact Or.inl ⟨_, sock, rfl, fun _ hok => (by cases hok), by omega⟩
  rw [if_neg himplausible]
  cases hat : hashAt (head.getD 0 0) (head.getD 5 0) with
  | error e => exact Or.inl ⟨_, sock, rfl, fun _ hok => (by cases hok), by omega⟩
  | ok place =>
    cases place with
    | some skip =>
      have hskip : skip ≤ 1 := by
        obtain ⟨-, ⟨-, rfl⟩ | ⟨-, rfl⟩⟩ := hashAt_some hat <;> decide
      obtain ⟨e, sock', hread, hleft⟩ | ⟨sock', hread, hrest, hleft⟩ :=
        View.readHash ending skip (len - 1) h
      · exact Or.inl ⟨_, sock', hread, fun _ hok => (by cases hok), by omega⟩
      · refine Or.inl ⟨_, sock', hread, fun hash hok => ?_, by omega⟩
        cases hok
        exact firstHello_here hhead hat hrest
    | none =>
      by_cases hmuch : MAX_SKIP < skipped + (len - 1)
      · simp only [if_pos hmuch]
        exact Or.inl ⟨_, sock, rfl, fun _ hok => (by cases hok), by omega⟩
      simp only [if_neg hmuch]
      by_cases hrest : len - 1 ≤ text.length
      · obtain ⟨sink, sock', hread, -, h'⟩ := View.readExact ending h hrest
        have hbody : (text.take (len - 1)).length = len - 1 := by
          rw [List.length_take, Nat.min_eq_left hrest]
        obtain ⟨f, hf, hfbody⟩ := @other_of_head head (text.take (len - 1)) hhead hat (by omega)
        refine Or.inr ⟨f, text.drop (len - 1), _, sock', ?_, ?_, h', ?_⟩
        · rw [hf, List.append_assoc, List.take_append_drop]
        · rw [hfbody, hbody]
          omega
        · rw [hread, hfbody, hbody]
      · rw [readExact_short ending h (Nat.lt_of_not_le hrest)]
        refine Or.inl ⟨_, _, rfl, fun _ hok => (by cases hok), ?_⟩
        rw [hlength, List.length_nil]
        omega

/-- One turn of the walk. -/
theorem walk_succ (hsix : 6 ≤ text.length) (h : View crypt sock text) :
    ∃ crypt' sock', View crypt' sock' (text.drop 6) ∧
      walk arrived ending (frames + 1) skipped crypt sock =
        readFrame ending (walk arrived ending frames) skipped (text.take 6) crypt' sock' := by
  obtain ⟨crypt', sock', hhead, h'⟩ := View.readHead arrived ending (skipped == 0) h hsix
  refine ⟨crypt', sock', h', ?_⟩
  rw [walk, hhead]

theorem walk_sound (hskipped : skipped ≤ MAX_SKIP) (h : View crypt sock text) :
    sock.unread.length ≤ (walk arrived ending frames skipped crypt sock).2.unread.length +
        6 * frames + (MAX_SKIP - skipped) + 17 ∧
      ∀ hash, (walk arrived ending frames skipped crypt sock).1 = .ok hash →
        FirstHello hash text := by
  induction frames generalizing skipped crypt sock text with
  | zero =>
    rw [walk]
    exact ⟨by simp only; omega, fun _ hok => by cases hok⟩
  | succ frames ih =>
    have hlength := h.length
    by_cases hsix : 6 ≤ text.length
    · obtain ⟨crypt', sock', h', hwalk⟩ := walk_succ arrived ending frames skipped hsix h
      have hlength' := h'.length
      rw [List.length_drop] at hlength'
      have hhead : (text.take 6).length = 6 := by rw [List.length_take, Nat.min_eq_left hsix]
      rw [hwalk]
      obtain ⟨result, sock'', hturn, hhash, hleft⟩ |
          ⟨f, rest, crypt'', sock'', htext, hmuch, h'', hturn⟩ :=
        readFrame_turn ending skipped (walk arrived ending frames) hhead hskipped h'
      · rw [hturn]
        refine ⟨by simp only; omega, fun hash hok => ?_⟩
        have hfirst := hhash hash hok
        rwa [List.take_append_drop] at hfirst
      · obtain ⟨hleft, hfirst⟩ := ih _ hmuch h''
        rw [List.take_append_drop] at htext
        have hlen := congrArg List.length htext
        rw [List.length_append, OtherFrame.bytes, length_writeFrame, HEADER_LEN, ← h''.length]
          at hlen
        rw [hturn]
        refine ⟨by omega, fun hash hok => ?_⟩
        rw [htext]
        exact .skip f (hfirst hash hok)
    · obtain ⟨e, sock', hhead, hnil⟩ :=
        readHead_short arrived ending (skipped == 0) h (Nat.lt_of_not_le hsix)
      rw [walk, hhead]
      exact ⟨by simp only; omega, fun _ hok => by cases hok⟩

/-- The head of a frame. -/
def headOf (proto opcode : UInt8) (len : Nat) : List UInt8 := proto :: (leBytes 4 len ++ [opcode])

theorem writeFrame_eq (proto opcode : UInt8) (body : List UInt8) :
    writeFrame proto opcode body = headOf proto opcode (body.length + 1) ++ body := by
  simp [writeFrame, headOf]

theorem length_headOf (proto opcode : UInt8) (len : Nat) :
    (headOf proto opcode len).length = 6 := by
  simp [headOf]

/-- A head is read as it was written. -/
theorem readFrame_headOf (next : Nat → Option Rc4 → Socket → Except String UserHash × Socket)
    {proto opcode : UInt8} {n : Nat} (hn : n + 1 < 2 ^ 32) :
    readFrame ending next skipped (headOf proto opcode (n + 1)) crypt sock =
      if MAX_SKIP < n + 1 then (.error "implausible frame length", sock)
      else
        match hashAt proto opcode with
        | .error e => (.error e, sock)
        | .ok (some skip) => readHash ending skip n crypt sock
        | .ok none =>
          if MAX_SKIP < skipped + n then (.error "too much preamble before an answer", sock)
          else
            match readExact ending n sock with
            | (.error _, sock) => (.error "truncated while skipping a frame", sock)
            | (.ok sink, sock) => next (skipped + n) (decrypt crypt sink).2 sock := by
  have hlen : ofLeBytes (((headOf proto opcode (n + 1)).drop 1).take 4) = n + 1 := by
    rw [headOf, List.drop_succ_cons, List.drop_zero, List.take_left' (length_leBytes 4 _),
      ofLeBytes_leBytes]
    exact Nat.mod_eq_of_lt hn
  have hop : (headOf proto opcode (n + 1)).getD 5 0 = opcode := by
    rw [headOf, List.getD_cons_succ, List.getD_append_right _ _ _ _ (by rw [length_leBytes]),
      length_leBytes]
    rfl
  simp only [readFrame, hlen, hop, Nat.add_sub_cancel, Nat.succ_ne_zero, false_or]
  rfl

theorem walk_frame {proto opcode : UInt8} {body rest : List UInt8}
    (h : View crypt sock (writeFrame proto opcode body ++ rest)) :
    ∃ crypt' sock', View crypt' sock' (body ++ rest) ∧
      walk arrived ending (frames + 1) skipped crypt sock =
        readFrame ending (walk arrived ending frames) skipped
          (headOf proto opcode (body.length + 1)) crypt' sock' := by
  rw [writeFrame_eq, List.append_assoc] at h
  have hsix := length_headOf proto opcode (body.length + 1)
  have hlong : 6 ≤ (headOf proto opcode (body.length + 1) ++ (body ++ rest)).length := by
    rw [List.length_append]
    omega
  obtain ⟨crypt', sock', h', hwalk⟩ := walk_succ arrived ending frames skipped hlong h
  rw [List.drop_left' hsix] at h'
  rw [List.take_left' hsix] at hwalk
  exact ⟨crypt', sock', h', hwalk⟩

/-- A frame that is no hello is walked past. -/
theorem walk_skip {f : OtherFrame} {rest : List UInt8} (hlen : f.body.length + 1 ≤ MAX_SKIP)
    (hmuch : skipped + f.body.length ≤ MAX_SKIP) (h : View crypt sock (f.bytes ++ rest)) :
    ∃ crypt' sock', View crypt' sock' rest ∧
      walk arrived ending (frames + 1) skipped crypt sock =
        walk arrived ending frames (skipped + f.body.length) crypt' sock' := by
  obtain ⟨crypt', sock', h', hwalk⟩ := walk_frame arrived ending frames skipped h
  have hbody : f.body.length ≤ (f.body ++ rest).length := by
    rw [List.length_append]
    exact Nat.le_add_right _ _
  obtain ⟨sink, sock'', hread, -, h''⟩ := View.readExact ending h' hbody
  rw [List.drop_left] at h''
  refine ⟨_, sock'', h'', ?_⟩
  rw [hwalk, readFrame_headOf ending skipped _ f.fits, if_neg (Nat.not_lt.mpr hlen),
    hashAt_none.mpr ⟨f.known, f.other⟩]
  simp only [if_neg (Nat.not_lt.mpr hmuch), hread]

theorem hashAt_hello (hello : Hello) : ∃ skip, hashAt PROTO_EDONKEY hello.opcode = .ok (some skip) ∧
    skip + 16 ≤ hello.body.length ∧
    ∀ rest, hashOf (((hello.body ++ rest).take (skip + 16)).drop skip) = hello.hash := by
  cases hello with
  | answer hash tail =>
    refine ⟨0, rfl, by simp [Hello.body], fun rest => ?_⟩
    have hlen : hash.toList.length = 0 + 16 := by simp
    rw [Hello.body, List.append_assoc, List.take_left' hlen, List.drop_zero]
    exact (congrArg hashOf (List.append_nil _).symm).trans (hashOf_toList hash [])
  | hello size hash tail =>
    refine ⟨1, rfl, by simp [Hello.body], fun rest => ?_⟩
    have hlen : (size :: hash.toList).length = 1 + 16 := by simp
    rw [Hello.body, ← List.cons_append, List.append_assoc, List.take_left' hlen]
    exact (congrArg hashOf (List.append_nil _).symm).trans (hashOf_toList hash [])

theorem isHello_opcode (hello : Hello) : isHello PROTO_EDONKEY hello.opcode = true := by
  cases hello <;> rfl

theorem writeFrame_append (proto opcode : UInt8) (body rest : List UInt8) :
    writeFrame proto opcode body ++ rest =
      proto :: (leBytes 4 (body.length + 1) ++ opcode :: (body ++ rest)) := by
  simp [writeFrame_eq, headOf]

/-- A text that starts with a hello has no other first hello. -/
theorem FirstHello.eq_hash {hash : UserHash} {hello : Hello} {text rest : List UInt8}
    (h : FirstHello hash text) (htext : text = hello.bytes ++ rest) : hash = hello.hash := by
  rw [Hello.bytes, writeFrame_append] at htext
  cases h with
  | here len hlen other heq tail =>
    obtain ⟨-, htail⟩ := List.cons.inj htext
    obtain ⟨-, hrest⟩ := List.append_inj htail (by rw [hlen, length_leBytes])
    obtain ⟨hopcode, hbody⟩ := List.cons.inj hrest
    obtain ⟨skip, hat, -, hhash⟩ := hashAt_hello hello
    obtain ⟨skip', hat', -, hhash'⟩ := hashAt_hello other
    rw [hopcode, hat] at hat'
    obtain rfl := Option.some.inj (Except.ok.inj hat')
    rw [← heq, ← hhash' tail, hbody]
    exact hhash rest
  | skip f hnext =>
    rw [OtherFrame.bytes, writeFrame_append] at htext
    obtain ⟨hproto, htail⟩ := List.cons.inj htext
    obtain ⟨-, hrest⟩ := List.append_inj htail (by rw [length_leBytes, length_leBytes])
    obtain ⟨hopcode, -⟩ := List.cons.inj hrest
    have hother := f.other
    rw [hproto, hopcode, isHello_opcode] at hother
    cases hother

/-- The hash of a hello is the answer. -/
theorem walk_hello {hello : Hello} {rest : List UInt8} (hlen : hello.body.length + 1 ≤ MAX_SKIP)
    (h : View crypt sock (hello.bytes ++ rest)) :
    (walk arrived ending (frames + 1) skipped crypt sock).1 = .ok hello.hash := by
  obtain ⟨crypt', sock', h', hwalk⟩ := walk_frame arrived ending frames skipped h
  obtain ⟨skip, hat, hfits, hhash⟩ := hashAt_hello hello
  have hbody : skip + 16 ≤ (hello.body ++ rest).length := by
    rw [List.length_append]
    omega
  obtain ⟨buf, sock'', hread, hbuf, -⟩ := View.readExact ending h' hbody
  have hsmall : hello.body.length + 1 < 2 ^ 32 := Nat.lt_of_le_of_lt hlen (by decide)
  rw [hwalk, readFrame_headOf ending skipped _ hsmall, if_neg (Nat.not_lt.mpr hlen), hat]
  simp only [readHash, if_neg (Nat.not_lt.mpr hfits), hread, hbuf, hhash]

/-- A hello that is longer than what may be skipped is refused. -/
theorem walk_long {hello : Hello} {rest : List UInt8} (hlen : MAX_SKIP < hello.body.length + 1)
    (hfits : hello.body.length + 1 < 2 ^ 32) (h : View crypt sock (hello.bytes ++ rest)) :
    (walk arrived ending (frames + 1) skipped crypt sock).1 =
      .error "implausible frame length" := by
  obtain ⟨crypt', sock', -, hwalk⟩ := walk_frame arrived ending frames skipped h
  rw [hwalk, readFrame_headOf ending skipped _ hfits, if_pos hlen]

/-- Whole frames before a hello are walked past. -/
theorem walk_frames {fs : List OtherFrame} {hello : Hello} {rest : List UInt8}
    (hcount : fs.length ≤ frames)
    (hmuch : skipped + (fs.map fun f => f.body.length + 1).sum ≤ MAX_SKIP)
    (hlen : hello.body.length + 1 ≤ MAX_SKIP)
    (h : View crypt sock (fs.flatMap OtherFrame.bytes ++ (hello.bytes ++ rest))) :
    (walk arrived ending (frames + 1) skipped crypt sock).1 = .ok hello.hash := by
  induction fs generalizing frames skipped crypt sock with
  | nil => exact walk_hello arrived ending frames skipped hlen h
  | cons f fs ih =>
    rw [List.length_cons] at hcount
    obtain ⟨frames, rfl⟩ : ∃ n, frames = n + 1 := ⟨frames - 1, by omega⟩
    rw [List.map_cons, List.sum_cons] at hmuch
    rw [List.flatMap_cons, List.append_assoc] at h
    obtain ⟨crypt', sock', h', hwalk⟩ := walk_skip arrived ending (frames + 1) skipped (by omega)
      (by omega) h
    rw [hwalk]
    exact ih frames _ (Nat.le_of_succ_le_succ hcount) (by omega) h'

end Walks

section Handshakes

variable (arrived : Arrivals) (ending : Ending) {recv : Rc4} {sock : Socket} {text : List UInt8}

/-- A peer's answer to the opening, with its padding. -/
def answerText (padding : List UInt8) : List UInt8 :=
  leBytes 4 MAGIC_SYNC ++ [0, UInt8.ofNat padding.length] ++ padding

theorem readHandshake_sound (h : View (some recv) sock text) :
    (∃ e sock', readHandshake ending recv sock = (.error e, sock') ∧
      sock.unread.length ≤ sock'.unread.length + 261) ∨
    ∃ crypt' sock', readHandshake ending recv sock = (.ok crypt', sock') ∧
      View crypt' sock' (text.drop (6 + (text.getD 5 0).toNat)) ∧
      sock.unread.length ≤ sock'.unread.length + 261 := by
  have hlength := h.length
  have hpad := (text.getD 5 0).toNat_lt
  rw [readHandshake]
  by_cases hsix : 6 ≤ text.length
  · obtain ⟨head, sock', hread, hhead, h'⟩ := View.readExact ending h hsix
    have hlength' := h'.length
    rw [List.length_drop] at hlength'
    have hfifth : (text.take 6).getD 5 0 = text.getD 5 0 := by
      simp [List.getD_eq_getElem?_getD]
    simp only [hread, hhead, hfifth]
    split_ifs with hsync hmethod hpos
    · exact Or.inl ⟨_, sock', rfl, by omega⟩
    · exact Or.inl ⟨_, sock', rfl, by omega⟩
    · by_cases hrest : (text.getD 5 0).toNat ≤ (text.drop 6).length
      · obtain ⟨sink, sock'', hsink, -, h''⟩ := View.readExact ending h' hrest
        have hlength'' := h''.length
        rw [List.length_drop, List.length_drop] at hlength''
        rw [List.drop_drop] at h''
        rw [hsink]
        exact Or.inr ⟨_, sock'', rfl, h'', by omega⟩
      · rw [readExact_short ending h' (Nat.lt_of_not_le hrest)]
        rw [List.length_drop] at hrest
        exact Or.inl ⟨_, _, rfl, by rw [List.length_nil]; omega⟩
    · obtain hzero : (text.getD 5 0).toNat = 0 := by omega
      rw [hzero]
      exact Or.inr ⟨_, sock', rfl, h', by omega⟩
  · rw [readExact_short ending h (Nat.lt_of_not_le hsix)]
    cases ending with
    | stalled => exact Or.inl ⟨_, _, rfl, by rw [List.length_nil]; omega⟩
    | closed => exact Or.inl ⟨_, _, rfl, by rw [List.length_nil]; omega⟩
    | failed => exact Or.inl ⟨_, _, rfl, by rw [List.length_nil]; omega⟩

/-- The padding is pushed through the key stream whatever its length. -/
theorem readHandshake_answer {padding : List UInt8} (hpad : padding.length ≤ 255)
    (h : View (some recv) sock (answerText padding ++ text)) :
    ∃ crypt' sock', readHandshake ending recv sock = (.ok crypt', sock') ∧
      View crypt' sock' text := by
  have hbyte : (UInt8.ofNat padding.length).toNat = padding.length := by
    rw [UInt8.toNat_ofNat']
    omega
  have hhead : (answerText padding ++ text).take 6 =
      leBytes 4 MAGIC_SYNC ++ [0, UInt8.ofNat padding.length] := by
    rw [answerText, List.append_assoc]
    exact List.take_left' (by simp)
  have hdrop : (answerText padding ++ text).drop 6 = padding ++ text := by
    rw [answerText, List.append_assoc]
    exact List.drop_left' (by simp)
  have hsix : 6 ≤ (answerText padding ++ text).length := by
    simp only [answerText, List.length_append, length_leBytes, List.length_cons, List.length_nil]
    omega
  obtain ⟨head, sock', hread, hplain, h'⟩ := View.readExact ending h hsix
  rw [hhead] at hplain
  rw [hdrop] at h'
  have hsync : ofLeBytes ((leBytes 4 MAGIC_SYNC ++ [0, UInt8.ofNat padding.length]).take 4) =
      MAGIC_SYNC := by
    rw [List.take_left' (length_leBytes 4 _), ofLeBytes_leBytes]
    rfl
  have hmethod : (leBytes 4 MAGIC_SYNC ++ [0, UInt8.ofNat padding.length]).getD 4 0 = 0 := rfl
  have hpadByte : (leBytes 4 MAGIC_SYNC ++ [0, UInt8.ofNat padding.length]).getD 5 0 =
      UInt8.ofNat padding.length := rfl
  rw [readHandshake, hread]
  simp only [hplain, hsync, hmethod, hpadByte, hbyte, ne_eq, not_true_eq_false, if_false]
  by_cases hpos : 0 < padding.length
  · have hle : padding.length ≤ (padding ++ text).length := by simp
    obtain ⟨sink, sock'', hsink, -, h''⟩ := View.readExact ending h' hle
    rw [List.drop_left] at h''
    rw [if_pos hpos, hsink]
    exact ⟨_, sock'', rfl, h''⟩
  · obtain rfl : padding = [] := List.length_eq_zero_iff.mp (by omega)
    rw [if_neg hpos]
    exact ⟨_, sock', rfl, h'⟩

end Handshakes

section Probes

variable (md5 : List UInt8 → Digest) (arrived : Arrivals) (p : Peer) (d : Draws)
  (expectedUserHash ourUserHash : UserHash) (ourId : UInt32) (ourPort : UInt16) (obfuscate : Bool)

/-- The key of what the peer sends, where the probe is obfuscated. -/
def recvKey : Option Rc4 :=
  if obfuscate then some (derive md5 expectedUserHash d.keypart MAGIC_VALUE_SERVER) else none

/-- The bytes of a peer that says this, behind its answer to the opening where there is one. -/
def saying (recv : Option Rc4) (padding text : List UInt8) : List UInt8 :=
  match recv with
  | none => text
  | some c => (c.apply (answerText padding ++ text)).1

/-- What the bytes say behind the answer to the opening and its padding. -/
def frameText (recv : Option Rc4) (bytes : List UInt8) : List UInt8 :=
  match recv with
  | none => bytes
  | some c =>
    let text := (c.apply bytes).1
    text.drop (6 + (text.getD 5 0).toNat)

theorem recvKey_true : recvKey md5 d expectedUserHash true =
    some (ClientCrypt.start md5 d expectedUserHash).1.recv := by
  rw [recvKey, if_pos rfl, ClientCrypt.start]

theorem frameText_some (c : Rc4) (bytes : List UInt8) : frameText (some c) bytes =
    (c.apply bytes).1.drop (6 + ((c.apply bytes).1.getD 5 0).toNat) := rfl

/-- What the peer says is what is read. -/
theorem view_saying (c : Rc4) (padding text : List UInt8) (calls : Nat) :
    View (some c) ⟨saying (some c) padding text, calls⟩ (answerText padding ++ text) :=
  apply_apply c (answerText padding ++ text)

/-- The most that a probe reads: the answer to the opening, the heads, the frames it skips, and a
hash. -/
def MAX_READ : Nat := 261 + 6 * MAX_FRAMES + MAX_SKIP + 17

theorem askHello_sound {opening hello text : List UInt8} {recv : Option Rc4} {sock : Socket}
    (h : View recv sock text) :
    sock.unread.length ≤ (askHello arrived p opening hello recv sock).sock.unread.length +
        6 * MAX_FRAMES + MAX_SKIP + 17 ∧
      ∀ hash, (askHello arrived p opening hello recv sock).result = .ok hash →
        FirstHello hash text := by
  rw [askHello]
  cases p.helloWrite with
  | failed => exact ⟨by simp only; omega, fun _ hok => by cases hok⟩
  | timeout => exact ⟨by simp only; omega, fun _ hok => by cases hok⟩
  | done => exact walk_sound arrived p.ending MAX_FRAMES 0 (Nat.zero_le _) h

theorem probe_sound :
    p.bytes.length ≤ (probeIdentityHash md5 arrived p d expectedUserHash ourUserHash ourId ourPort
        obfuscate).sock.unread.length + MAX_READ ∧
      ∀ hash, (probeIdentityHash md5 arrived p d expectedUserHash ourUserHash ourId ourPort
        obfuscate).result = .ok hash →
        FirstHello hash (frameText (recvKey md5 d expectedUserHash obfuscate) p.bytes) := by
  have hread : MAX_READ = 261 + 6 * MAX_FRAMES + MAX_SKIP + 17 := rfl
  rw [probeIdentityHash]
  cases p.connect with
  | refused => exact ⟨Nat.le_add_right _ _, fun _ hok => by cases hok⟩
  | unreachable => exact ⟨Nat.le_add_right _ _, fun _ hok => by cases hok⟩
  | timeout => exact ⟨Nat.le_add_right _ _, fun _ hok => by cases hok⟩
  | accepted =>
    cases obfuscate with
    | false =>
      obtain ⟨hleft, hfirst⟩ := @askHello_sound arrived p [] (buildHello ourUserHash ourId ourPort)
        p.bytes none ⟨p.bytes, 0⟩ rfl
      simp only [if_neg Bool.false_ne_true] at hleft ⊢
      exact ⟨by omega, hfirst⟩
    | true =>
      simp only [if_true]
      cases p.openingWrite with
      | failed => exact ⟨Nat.le_add_right _ _, fun _ hok => by cases hok⟩
      | timeout => exact ⟨Nat.le_add_right _ _, fun _ hok => by cases hok⟩
      | done =>
        set crypt := (ClientCrypt.start md5 d expectedUserHash).1 with hcrypt
        have hview : View (some crypt.recv) ⟨p.bytes, 0⟩ (crypt.recv.apply p.bytes).1 := rfl
        obtain ⟨e, sock', hread', hleft⟩ | ⟨recv, sock', hread', h', hleft⟩ :=
          readHandshake_sound p.ending hview
        · simp only [hread'] at hleft ⊢
          exact ⟨by omega, fun _ hok => by cases hok⟩
        · obtain ⟨hleft', hfirst⟩ := @askHello_sound arrived p
            (ClientCrypt.start md5 d expectedUserHash).2
            (crypt.send.apply (buildHello ourUserHash ourId ourPort)).1 _ recv sock' h'
          rw [recvKey_true, ← hcrypt, frameText_some]
          simp only [hread'] at hleft ⊢
          exact ⟨by omega, hfirst⟩

variable {md5 p d expectedUserHash}

/-- Frames that are no hello, and then a hello, of a peer that takes what is sent to it. -/
theorem probe_answer {fs : List OtherFrame} {hello : Hello} {padding rest : List UInt8}
    (hconnect : p.connect = .accepted) (hopening : p.openingWrite = .done)
    (hwrite : p.helloWrite = .done) (hpad : padding.length ≤ 255) (hcount : fs.length ≤ 7)
    (hmuch : (fs.map fun f => f.body.length + 1).sum ≤ MAX_SKIP)
    (hlen : hello.body.length + 1 ≤ MAX_SKIP)
    (hbytes : p.bytes = saying (recvKey md5 d expectedUserHash obfuscate) padding
      (fs.flatMap OtherFrame.bytes ++ (hello.bytes ++ rest))) :
    (probeIdentityHash md5 arrived p d expectedUserHash ourUserHash ourId ourPort
      obfuscate).result = .ok hello.hash := by
  have hmuch' : 0 + (fs.map fun f => f.body.length + 1).sum ≤ MAX_SKIP := by rwa [Nat.zero_add]
  have hwalk : ∀ recv sock opening sent, View recv sock
      (fs.flatMap OtherFrame.bytes ++ (hello.bytes ++ rest)) →
      (askHello arrived p opening sent recv sock).result = .ok hello.hash := by
    intro recv sock opening sent h
    rw [askHello, hwrite]
    exact walk_frames arrived p.ending 7 0 hcount hmuch' hlen h
  rw [probeIdentityHash, hconnect]
  cases obfuscate with
  | false => exact hwalk _ _ _ _ hbytes
  | true =>
    simp only [if_true, hopening]
    have hview : View (some (ClientCrypt.start md5 d expectedUserHash).1.recv) ⟨p.bytes, 0⟩
        (answerText padding ++ (fs.flatMap OtherFrame.bytes ++ (hello.bytes ++ rest))) := by
      rw [hbytes, recvKey_true]
      exact view_saying _ _ _ _
    obtain ⟨recv, sock', hread, h'⟩ := readHandshake_answer p.ending hpad hview
    rw [hread]
    exact hwalk recv sock' _ _ h'

theorem probe_long {hello : Hello} (hconnect : p.connect = .accepted)
    (hwrite : p.helloWrite = .done) (hlen : MAX_SKIP < hello.body.length + 1)
    (hfits : hello.body.length + 1 < 2 ^ 32) (hbytes : p.bytes = hello.bytes) :
    (probeIdentityHash md5 arrived p d expectedUserHash ourUserHash ourId ourPort
      false).result = .error "implausible frame length" := by
  have hview : View none ⟨p.bytes, 0⟩ (hello.bytes ++ []) := by
    rw [hbytes, List.append_nil]
    exact view_plain _ _
  rw [probeIdentityHash, hconnect]
  simp only [if_neg Bool.false_ne_true]
  rw [askHello, hwrite]
  exact walk_long arrived p.ending 7 0 hlen hfits hview

variable (md5 p d expectedUserHash)

/-- A peer that says hello behind at most seven other frames is read right, and whatever a peer
sends, a bounded part of it is read and only the first hello is believed. -/
theorem reads_first_hello :
    (∀ (fs : List OtherFrame) (hello : Hello) (padding rest : List UInt8),
      p.connect = .accepted → p.openingWrite = .done → p.helloWrite = .done →
      padding.length ≤ 255 → fs.length ≤ 7 →
      (fs.map fun f => f.body.length + 1).sum ≤ MAX_SKIP → hello.body.length + 1 ≤ MAX_SKIP →
      p.bytes = saying (recvKey md5 d expectedUserHash obfuscate) padding
        (fs.flatMap OtherFrame.bytes ++ (hello.bytes ++ rest)) →
      (probeIdentityHash md5 arrived p d expectedUserHash ourUserHash ourId ourPort
        obfuscate).result = .ok hello.hash) ∧
    p.bytes.length ≤ (probeIdentityHash md5 arrived p d expectedUserHash ourUserHash ourId ourPort
      obfuscate).sock.unread.length + MAX_READ ∧
    ∀ hash, (probeIdentityHash md5 arrived p d expectedUserHash ourUserHash ourId ourPort
      obfuscate).result = .ok hash →
      FirstHello hash (frameText (recvKey md5 d expectedUserHash obfuscate) p.bytes) := by
  refine ⟨?_, probe_sound md5 arrived p d expectedUserHash ourUserHash ourId ourPort obfuscate⟩
  intro fs hello padding rest hconnect hopening hwrite hpad hcount hmuch hlen hbytes
  exact probe_answer arrived ourUserHash ourId ourPort obfuscate hconnect hopening hwrite hpad
    hcount hmuch hlen hbytes

end Probes

def sampleDraws : Draws := ⟨1, 0x10, by decide, by decide⟩

def samplePeer (bytes : List UInt8) : Peer := ⟨.accepted, .done, .done, bytes, .stalled⟩

/-- What an eMule sends before its answer. -/
def emuleInfo : OtherFrame :=
  ⟨PROTO_EMULE, 0x01, [0x3C, 0x01, 0, 0, 0, 0], by decide, by decide, rfl⟩

def shortHello : Hello := .answer (Vector.replicate 16 7) [1, 2, 3, 4]

theorem emule_answer : (probeIdentityHash (fun _ => Vector.replicate 16 0) (fun _ => 0)
    (samplePeer (emuleInfo.bytes ++ shortHello.bytes)) sampleDraws (Vector.replicate 16 7)
    (Vector.replicate 16 9) 0 4661 false).result = .ok (Vector.replicate 16 7) :=
  (reads_first_hello (fun _ => Vector.replicate 16 0) (fun _ => 0)
    (samplePeer (emuleInfo.bytes ++ shortHello.bytes)) sampleDraws (Vector.replicate 16 7)
    (Vector.replicate 16 9) 0 4661 false).1 [emuleInfo] shortHello [] [] rfl rfl rfl (by decide)
    (by decide) (by decide) (by decide) (by simp [samplePeer, saying, recvKey])

/-- With a tag of more than 64 KiB. -/
def longHello : Hello := .answer (Vector.replicate 16 7) (List.replicate 65520 0)

theorem long_hello_refused : (samplePeer longHello.bytes).bytes = saying none []
      (([] : List OtherFrame).flatMap OtherFrame.bytes ++ (longHello.bytes ++ [])) ∧
    (probeIdentityHash (fun _ => Vector.replicate 16 0) (fun _ => 0) (samplePeer longHello.bytes)
      sampleDraws (Vector.replicate 16 7) (Vector.replicate 16 9) 0 4661 false).result =
      .error "implausible frame length" := by
  have hbody : longHello.body.length = 65536 := by
    rw [longHello, Hello.body, List.length_append, List.length_replicate]
    simp
  have hskip : MAX_SKIP = 65536 := rfl
  have hlong : MAX_SKIP < longHello.body.length + 1 := by omega
  have hfits : longHello.body.length + 1 < 2 ^ 32 := by omega
  constructor
  · simp [samplePeer, saying]
  · exact probe_long (fun _ => 0) (Vector.replicate 16 9) 0 4661 rfl rfl hlong hfits rfl

end Ed2kServer.Server.IdentityProbe
