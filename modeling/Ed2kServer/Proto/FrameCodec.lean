import Ed2kServer.Basic
import Ed2kServer.Lib.Incremental
import Ed2kServer.Lib.LittleEndian

namespace Ed2kServer.Proto.FrameCodec

open Ed2kServer.Lib.Incremental Ed2kServer.Lib.LittleEndian

def PROTO_EDONKEY : UInt8 := 0xE3

def PROTO_PACKED : UInt8 := 0xD4

def HEADER_LEN : Nat := 6

inductive FrameError
  | invalidMarker (b : UInt8)
  | tooLarge (got limit : UInt32)
  | decompress (message : String)
  | decompressedTooLarge (limit : UInt32)
  | emptyFrame
  deriving DecidableEq

structure Frame where
  opcode : UInt8
  payload : List UInt8
  deriving DecidableEq

/-- The compression library: `inflate` yields at most that many bytes of the plaintext. -/
structure Zlib where
  compress : List UInt8 → Option (List UInt8)
  inflate : List UInt8 → Nat → Except String (List UInt8)

/-- What was compressed is inflated whole, by a reader that asks for more than there is. -/
def Zlib.RoundTrips (z : Zlib) : Prop :=
  ∀ plain packed limit, z.compress plain = some packed → plain.length < limit →
    z.inflate packed limit = .ok plain

structure Ed2kCodec where
  maxFrameSize : UInt32
  maxDecompressedSize : UInt32

variable (z : Zlib)

/-- The plaintext of a payload that is all there. -/
def unpack (codec : Ed2kCodec) (proto : UInt8) (raw : List UInt8) :
    Except FrameError (List UInt8) :=
  if proto = PROTO_PACKED then
    match z.inflate raw (codec.maxDecompressedSize.toNat + 1) with
    | .error message => .error (.decompress message)
    | .ok out =>
      if codec.maxDecompressedSize.toNat < out.length then
        .error (.decompressedTooLarge codec.maxDecompressedSize)
      else .ok out
  else .ok raw

/-- The length field of a whole header, checked. -/
def frameLength (codec : Ed2kCodec) (src : List UInt8) : Except FrameError Nat :=
  let proto := src.getD 0 0
  if proto ≠ PROTO_EDONKEY ∧ proto ≠ PROTO_PACKED then .error (.invalidMarker proto)
  else
    let length := UInt32.ofNat (ofLeBytes ((src.drop 1).take 4))
    if length = 0 then .error .emptyFrame
    else if codec.maxFrameSize < length then .error (.tooLarge length codec.maxFrameSize)
    else .ok length.toNat

/-- One frame from the front of the buffer, and what is left of it. -/
def decode (codec : Ed2kCodec) (src : List UInt8) :
    Except FrameError (Option Frame) × List UInt8 :=
  if src.length < HEADER_LEN then (.ok none, src)
  else
    match frameLength codec src with
    | .error e => (.error e, src)
    | .ok length =>
      let total := HEADER_LEN + length - 1
      if src.length < total then (.ok none, src)
      else
        let raw := (src.drop HEADER_LEN).take (length - 1)
        let payload := unpack z codec (src.getD 0 0) raw
        (payload.map (fun p => some ⟨src.getD 5 0, p⟩), src.drop total)

/-- At the end of the stream a cut-off frame is no error. -/
def decodeEof (codec : Ed2kCodec) (src : List UInt8) :
    Except FrameError (Option Frame) × List UInt8 := decode z codec src

def COMPRESS_THRESHOLD : Nat := 4096

/-- The compressed form, where it is tried and shorter. -/
def packed (payload : List UInt8) : Option (List UInt8) :=
  if COMPRESS_THRESHOLD < payload.length then
    (z.compress payload).filter (·.length < payload.length)
  else none

def writeFrame (proto opcode : UInt8) (body : List UInt8) : List UInt8 :=
  proto :: (leBytes 4 (body.length + 1) ++ opcode :: body)

/-- The bytes put behind those already in the buffer. -/
def encode (item : Frame) : List UInt8 :=
  match packed z item.payload with
  | some body => writeFrame PROTO_PACKED item.opcode body
  | none => writeFrame PROTO_EDONKEY item.opcode item.payload

/-- What a frame's length field counts: the opcode and the payload as sent. -/
def wireLength (item : Frame) : Nat := ((packed z item.payload).getD item.payload).length + 1

variable {z} {codec : Ed2kCodec} {src rest : List UInt8}

theorem frameLength_append (h : HEADER_LEN ≤ src.length) (more : List UInt8) :
    frameLength codec (src ++ more) = frameLength codec src := by
  have hlen : 6 ≤ src.length := h
  have hfield : ((src ++ more).drop 1).take 4 = (src.drop 1).take 4 := by
    rw [List.drop_append_of_le_length (by omega),
      List.take_append_of_le_length (by rw [List.length_drop]; omega)]
  rw [frameLength, frameLength, List.getD_append _ _ _ _ (by omega), hfield]

/-- A frame has at least an opcode. -/
theorem frameLength_pos {n : Nat} (h : frameLength codec src = .ok n) : 0 < n := by
  rw [frameLength] at h
  split at h
  · cases h
  · dsimp only at h
    split at h
    · cases h
    · rename_i hne
      split at h
      · cases h
      · obtain rfl := Except.ok.inj h
        exact Nat.pos_of_ne_zero (fun hz => hne (UInt32.toNat_inj.mp hz))

/-- Every way a call can end. -/
theorem decode_cases (codec : Ed2kCodec) (src : List UInt8) :
    (decode z codec src = (.ok none, src)) ∨
      (HEADER_LEN ≤ src.length ∧ ∃ e, frameLength codec src = .error e ∧
        decode z codec src = (.error e, src)) ∨
      (HEADER_LEN ≤ src.length ∧ ∃ length, frameLength codec src = .ok length ∧
        HEADER_LEN + length - 1 ≤ src.length ∧
        decode z codec src = ((unpack z codec (src.getD 0 0)
          ((src.drop HEADER_LEN).take (length - 1))).map (fun p => some ⟨src.getD 5 0, p⟩),
            src.drop (HEADER_LEN + length - 1))) := by
  by_cases hshort : src.length < HEADER_LEN
  · exact Or.inl (by rw [decode, if_pos hshort])
  · have hlen := Nat.le_of_not_lt hshort
    cases hfl : frameLength codec src with
    | error e => exact Or.inr (Or.inl ⟨hlen, e, rfl, by rw [decode, if_neg hshort, hfl]⟩)
    | ok length =>
      by_cases htotal : src.length < HEADER_LEN + length - 1
      · refine Or.inl ?_
        rw [decode, if_neg hshort, hfl]
        simp only [if_pos htotal]
      · refine Or.inr (Or.inr ⟨hlen, length, rfl, Nat.le_of_not_lt htotal, ?_⟩)
        rw [decode, if_neg hshort, hfl]
        simp only [if_neg htotal]

/-- A call that ends with a whole frame, or an error in it, ends so whatever follows. -/
theorem decode_whole {length : Nat} (hlen : HEADER_LEN ≤ src.length)
    (hfl : frameLength codec src = .ok length) (htotal : HEADER_LEN + length - 1 ≤ src.length)
    (more : List UInt8) :
    decode z codec (src ++ more) = ((unpack z codec (src.getD 0 0)
      ((src.drop HEADER_LEN).take (length - 1))).map (fun p => some ⟨src.getD 5 0, p⟩),
        src.drop (HEADER_LEN + length - 1) ++ more) := by
  have hsix : 6 ≤ src.length := hlen
  have hraw : ((src ++ more).drop HEADER_LEN).take (length - 1) =
      (src.drop HEADER_LEN).take (length - 1) := by
    rw [List.drop_append_of_le_length hlen, List.take_append_of_le_length]
    rw [List.length_drop]
    have hpos := frameLength_pos hfl
    omega
  rw [decode, if_neg (by rw [List.length_append]; omega), frameLength_append hlen, hfl]
  simp only [hraw, List.getD_append _ _ _ 0 (by omega : 0 < src.length),
    List.getD_append _ _ 0 5 (by omega : 5 < src.length), List.drop_append_of_le_length htotal]
  rw [if_neg (by rw [List.length_append]; omega)]

theorem decode_prefixed : Prefixed (decode z codec) where
  item_append {buf a rest} h more := by
    obtain hd | ⟨-, e, -, hd⟩ | ⟨hlen, length, hfl, htotal, hd⟩ := decode_cases (z := z) codec buf
    · rw [hd] at h
      cases h
    · rw [hd] at h
      cases h
    · rw [hd] at h
      obtain ⟨hout, rfl⟩ := Prod.mk.inj h
      rw [decode_whole hlen hfl htotal, hout]
  error_append {buf e rest} h more := by
    obtain hd | ⟨hlen, e', hfl, hd⟩ | ⟨hlen, length, hfl, htotal, hd⟩ :=
      decode_cases (z := z) codec buf
    · rw [hd] at h
      cases h
    · rw [hd] at h
      obtain ⟨hout, -⟩ := Prod.mk.inj h
      have hsix : ¬ (buf ++ more).length < HEADER_LEN := by
        rw [List.length_append]
        omega
      rw [decode, if_neg hsix, frameLength_append hlen, hfl]
      exact hout
    · rw [hd] at h
      obtain ⟨hout, -⟩ := Prod.mk.inj h
      rw [decode_whole hlen hfl htotal, hout]
  shorter {buf a rest} h := by
    obtain hd | ⟨-, e, -, hd⟩ | ⟨hlen, length, hfl, htotal, hd⟩ := decode_cases (z := z) codec buf
    · rw [hd] at h
      cases h
    · rw [hd] at h
      cases h
    · rw [hd] at h
      obtain ⟨-, rfl⟩ := Prod.mk.inj h
      have hpos := frameLength_pos hfl
      have hsix : 6 ≤ buf.length := hlen
      rw [List.length_drop, HEADER_LEN]
      omega
  none_rest {buf rest} h := by
    obtain hd | ⟨-, e, -, hd⟩ | ⟨hlen, length, hfl, htotal, hd⟩ := decode_cases (z := z) codec buf
    · rw [hd] at h
      exact (Prod.mk.inj h).2.symm
    · rw [hd] at h
      cases h
    · rw [hd] at h
      obtain ⟨hout, -⟩ := Prod.mk.inj h
      cases hu : unpack z codec (buf.getD 0 0) ((buf.drop HEADER_LEN).take (length - 1)) <;>
        rw [hu] at hout <;> cases hout

theorem decode_nil : decode z codec [] = (.ok none, []) := rfl

theorem length_writeFrame (proto opcode : UInt8) (body : List UInt8) :
    (writeFrame proto opcode body).length = HEADER_LEN + body.length := by
  rw [writeFrame, List.length_cons, List.length_append, length_leBytes, List.length_cons, HEADER_LEN]
  omega

/-- The header of a frame whose length fits is read back. -/
theorem frameLength_writeFrame {proto : UInt8} (opcode : UInt8) {body : List UInt8}
    (hproto : proto = PROTO_EDONKEY ∨ proto = PROTO_PACKED)
    (hfits : body.length + 1 ≤ codec.maxFrameSize.toNat) :
    frameLength codec (writeFrame proto opcode body) = .ok (body.length + 1) := by
  have hmax := codec.maxFrameSize.toNat_lt
  have hfield : ofLeBytes (((writeFrame proto opcode body).drop 1).take 4) = body.length + 1 := by
    rw [writeFrame, List.drop_succ_cons, List.drop_zero, List.take_left' (length_leBytes 4 _),
      ofLeBytes_leBytes, Nat.mod_eq_of_lt (by omega)]
  have hnat : (UInt32.ofNat (body.length + 1)).toNat = body.length + 1 := by
    rw [UInt32.toNat_ofNat']
    omega
  have hzero : UInt32.ofNat (body.length + 1) ≠ 0 := by
    intro he
    rw [he] at hnat
    cases hnat
  have hle : ¬ codec.maxFrameSize < UInt32.ofNat (body.length + 1) := by
    rw [UInt32.lt_iff_toNat_lt, hnat]
    omega
  rw [frameLength, hfield]
  simp only [hzero, hle, if_false, hnat]
  rw [if_neg]
  rintro ⟨h₁, h₂⟩
  obtain rfl | rfl := hproto
  · exact h₁ rfl
  · exact h₂ rfl

theorem decode_writeFrame {proto : UInt8} (opcode : UInt8) {body : List UInt8}
    (hproto : proto = PROTO_EDONKEY ∨ proto = PROTO_PACKED)
    (hfits : body.length + 1 ≤ codec.maxFrameSize.toNat) :
    decode z codec (writeFrame proto opcode body) =
      ((unpack z codec proto body).map (fun p => some ⟨opcode, p⟩), []) := by
  have hlen := length_writeFrame proto opcode body
  have hraw : ((writeFrame proto opcode body).drop HEADER_LEN).take (body.length + 1 - 1) =
      body := by
    have hdrop : (writeFrame proto opcode body).drop HEADER_LEN = body := rfl
    rw [hdrop, Nat.add_sub_cancel, List.take_length]
  have hop : (writeFrame proto opcode body).getD 5 0 = opcode := rfl
  rw [decode, if_neg (by rw [hlen]; omega), frameLength_writeFrame opcode hproto hfits]
  simp only [hlen, hraw, hop]
  rw [if_neg (by omega)]
  have hrest : (writeFrame proto opcode body).drop (HEADER_LEN + (body.length + 1) - 1) = [] := by
    rw [List.drop_eq_nil_iff, hlen]
    omega
  rw [hrest]
  rfl

/-- A frame that fits is read back from its bytes. -/
theorem decode_encode (hz : z.RoundTrips) {f : Frame}
    (hwire : wireLength z f ≤ codec.maxFrameSize.toNat)
    (hplain : f.payload.length ≤ codec.maxDecompressedSize.toNat) :
    decode z codec (encode z f) = (.ok (some f), []) := by
  rw [wireLength] at hwire
  rw [encode]
  cases hp : packed z f.payload with
  | none =>
    rw [hp] at hwire
    exact decode_writeFrame f.opcode (Or.inl rfl) hwire
  | some body =>
    rw [hp] at hwire
    have hbody : z.compress f.payload = some body := by
      rw [packed] at hp
      split at hp
      · exact (Option.filter_eq_some_iff.mp hp).1
      · cases hp
    have hinflate := hz f.payload body _ hbody (Nat.lt_succ_of_le hplain)
    have hu : unpack z codec PROTO_PACKED body = .ok f.payload := by
      rw [unpack, if_pos rfl, hinflate]
      simp only [if_neg (Nat.not_lt.mpr hplain)]
    have hread := decode_writeFrame (z := z) f.opcode (Or.inr rfl) hwire
    rw [Option.getD_some, hu] at hread
    exact hread

theorem unpack_length {proto : UInt8} {raw payload : List UInt8} (hp : proto = PROTO_PACKED)
    (h : unpack z codec proto raw = .ok payload) :
    payload.length ≤ codec.maxDecompressedSize.toNat := by
  rw [unpack, if_pos hp] at h
  split at h
  · cases h
  · split at h
    · cases h
    · rename_i hle
      obtain rfl := Except.ok.inj h
      exact Nat.le_of_not_lt hle

/-- Frames that fit come back from their bytes however these are cut; what a stream yields does
not depend on the cuts; a call that asks for more takes nothing; the plaintext of a packed frame
is bounded. -/
theorem frame_codec (hz : z.RoundTrips) (codec : Ed2kCodec) :
    (∀ frames : List Frame,
      (∀ f ∈ frames, wireLength z f ≤ codec.maxFrameSize.toNat ∧
        f.payload.length ≤ codec.maxDecompressedSize.toNat) →
      ∀ chunks : List (List UInt8), chunks.flatten = frames.flatMap (encode z) →
        readAll (decode z codec) chunks = ⟨frames, none, []⟩ ∧
          decodeEof z codec [] = (.ok none, [])) ∧
    (∀ chunks chunks' : List (List UInt8), chunks.flatten = chunks'.flatten →
      (readAll (decode z codec) chunks).items = (readAll (decode z codec) chunks').items ∧
      (readAll (decode z codec) chunks).error = (readAll (decode z codec) chunks').error) ∧
    (∀ src rest, decode z codec src = (.ok none, rest) → rest = src) ∧
    ∀ src rest f, src.head? = some PROTO_PACKED → decode z codec src = (.ok (some f), rest) →
      f.payload.length ≤ codec.maxDecompressedSize.toNat := by
  have hprefixed : Prefixed (decode z codec) := decode_prefixed
  refine ⟨fun frames hfits chunks hcut => ?_, fun chunks chunks' hcut => ?_,
    fun src rest h => decode_prefixed.none_rest h, fun src rest f hpacked h => ?_⟩
  · obtain ⟨hitems, herror, hbuffer⟩ := readAll_eq hprefixed decode_nil chunks
    have hdrain := drain_flatMap hprefixed decode_nil
      (encode z) id (fun f hf => decode_encode hz (hfits f hf).1 (hfits f hf).2)
    rw [hcut, hdrain] at hitems herror hbuffer
    refine ⟨?_, decode_nil⟩
    have hread : readAll (decode z codec) chunks =
        ⟨(readAll (decode z codec) chunks).items, (readAll (decode z codec) chunks).error,
          (readAll (decode z codec) chunks).buffer⟩ := rfl
    rw [hread, hitems, herror, hbuffer rfl, List.map_id]
  · have h := readAll_eq hprefixed decode_nil chunks
    have h' := readAll_eq hprefixed decode_nil chunks'
    rw [← hcut] at h'
    exact ⟨h.1.trans h'.1.symm, h.2.1.trans h'.2.1.symm⟩
  · obtain hd | ⟨-, e, -, hd⟩ | ⟨hlen, length, hfl, htotal, hd⟩ := decode_cases (z := z) codec src
    · rw [hd] at h
      cases h
    · rw [hd] at h
      cases h
    · rw [hd] at h
      obtain ⟨hout, -⟩ := Prod.mk.inj h
      have hproto : src.getD 0 0 = PROTO_PACKED := by
        rw [List.getD_eq_getElem?_getD, ← List.head?_eq_getElem?, hpacked]
        rfl
      cases hu : unpack z codec (src.getD 0 0) ((src.drop HEADER_LEN).take (length - 1)) with
      | error e =>
        rw [hu] at hout
        cases hout
      | ok payload =>
        rw [hu] at hout
        obtain rfl := Option.some.inj (Except.ok.inj hout)
        exact unpack_length hproto hu

/-- A library that never gets to shorten anything. -/
def idleZlib : Zlib := ⟨fun _ => none, fun _ _ => .error "corrupt deflate stream"⟩

/-- A short frame that arrives in two pieces. -/
theorem frame_codec_hello :
    readAll (decode idleZlib ⟨1000000, 8000000⟩)
      [[0xE3, 0x06, 0x00], [0x00, 0x00, 0x38, 0x68, 0x65, 0x6C, 0x6C, 0x6F]] =
        ⟨[⟨0x38, [0x68, 0x65, 0x6C, 0x6C, 0x6F]⟩], none, []⟩ := by
  have hz : idleZlib.RoundTrips := fun _ _ _ h => by cases h
  refine ((frame_codec hz ⟨1000000, 8000000⟩).1
    [⟨0x38, [0x68, 0x65, 0x6C, 0x6C, 0x6F]⟩] (fun f hf => ?_) _ (by decide)).1
  obtain rfl := List.mem_singleton.mp hf
  decide

end Ed2kServer.Proto.FrameCodec
