import Ed2kServer.Updates.Install
import Ed2kServer.Updates.Unzip

namespace Ed2kServer.Updates.Fetch

open Ed2kServer.Lib.Failing Ed2kServer.Slab.Record Ed2kServer.Text.Lines
open Ed2kServer.Text.Utf8 Ed2kServer.Filter.Loaders Ed2kServer.Updates.Validate
open Ed2kServer.Updates.Merge Ed2kServer.Updates.Install Ed2kServer.Updates.Unzip

/-- What the update service answers; an interrupted body ends with an error. -/
inductive Response
  | status (code : Nat)
  | failed
  | ok (contentLength : Option UInt64) (body : List UInt8) (interrupted : Bool)

inductive FetchError
  | status (code : Nat)
  | failed
  | declaredTooLarge (len : Nat)
  | interrupted (got : Nat)
  | tooLarge
  | empty
  | truncated (declared got : Nat)
  deriving DecidableEq

/-- One byte more than allowed is read; past the greatest number of all that is no byte. -/
def httpGet (maxBytes : UInt64) : Response → Except FetchError (List UInt8)
  | .status code => .error (.status code)
  | .failed => .error .failed
  | .ok contentLength body interrupted =>
    let limit := (maxBytes + 1).toNat
    let bytes := body.take limit
    if contentLength.any (maxBytes < ·) then
      .error (.declaredTooLarge (contentLength.getD 0).toNat)
    else if interrupted ∧ body.length < limit then .error (.interrupted bytes.length)
    else if maxBytes.toNat < bytes.length then .error .tooLarge
    else if bytes = [] then .error .empty
    else if contentLength.any (·.toNat ≠ bytes.length) then
      .error (.truncated (contentLength.getD 0).toNat bytes.length)
    else .ok bytes

inductive SignatureError
  | keyNotHex
  | keyLength (len : Nat)
  | keyInvalid
  | signatureLength (len : Nat)
  | signatureNotHex (len : Nat)
  | doesNotVerify
  deriving DecidableEq

/-- Which bytes are a key, and which signature is one of a message under a key. -/
structure Ed25519 where
  isKey : List UInt8 → Bool
  verifies : List UInt8 → List UInt8 → List UInt8 → Bool

def parseSignatureBytes (raw : List UInt8) : Except SignatureError (List UInt8) :=
  if raw.length = 64 then .ok raw
  else
    match hexDecode ((fromUtf8Lossy raw).filter (! isWhitespace ·)) with
    | some v => if v.length = 64 then .ok v else .error (.signatureLength v.length)
    | none => .error (.signatureNotHex raw.length)

def verifySignature (E : Ed25519) (bytes signatureFile : List UInt8) (publicKeyHex : Str) :
    Except SignatureError Unit := do
  let some key := hexDecode (trim publicKeyHex) | throw .keyNotHex
  if key.length ≠ 32 then throw (.keyLength key.length)
  if ¬ E.isKey key then throw .keyInvalid
  let sig ← parseSignatureBytes signatureFile
  if ¬ E.verifies key bytes sig then throw .doesNotVerify

structure UpdateRequest (F : Type) where
  target : Target
  mode : Mode
  url : Str
  publicKeyHex : Str
  requireSignature : Bool
  backups : UInt8
  maxBytes : UInt64
  minKeepRatio : F

inductive RunError
  | noUrl
  | fetch (e : FetchError)
  | noPublicKey
  | signature (e : SignatureError)
  | unzip (e : UnzipError)
  | install (e : InstallError)
  deriving DecidableEq

/-- The answers to the requests for the file and for its signature. -/
structure Answers where
  file : Response
  signature : Response

/-- What a run takes from outside the program. -/
structure World (F : Type) [LinearOrder F] [Zero F] where
  readers : Readers
  quotients : Quotients F
  ed25519 : Ed25519
  inflate : List UInt8 → Except Str (List UInt8)

def looksZipped (url : Str) (bytes : List UInt8) : Bool :=
  ".zip".toList.isSuffixOf ((trimEnd url).map Char.toLower) || LFH_SIG.isPrefixOf bytes

variable {F : Type} [LinearOrder F] [Zero F] (W : World F)

def checkSignature (req : UpdateRequest F) (answer : Response) (bytes : List UInt8) :
    Except RunError Unit := do
  if req.requireSignature then
    if trim req.publicKeyHex = [] then throw .noPublicKey
    let sig ← (httpGet 4096 answer).mapError .fetch
    (verifySignature W.ed25519 bytes sig req.publicKeyHex).mapError .signature

def extract (url : Str) (bytes : List UInt8) : Except RunError (List UInt8) :=
  if looksZipped url bytes then (unzipFirstFile W.inflate bytes).mapError .unzip else .ok bytes

/-- The bytes a run would install over a file, before it touches the disk. -/
def prepare (req : UpdateRequest F) (answers : Answers) (stamp : Str)
    (existing : Option (List UInt8)) : Except RunError (List UInt8) := do
  if trim req.url = [] then throw .noUrl
  if req.mode = .merge ∧ ¬ req.target.supportsMerge then throw (.install .cannotMerge)
  let fetched ← (httpGet req.maxBytes answers.file).mapError .fetch
  checkSignature W req answers.signature fetched
  let content ← extract W req.url fetched
  (install W.readers W.quotients req.target req.mode req.minKeepRatio stamp existing
    content).mapError .install

/-- The key that a request's text names is a key, and a signature of the bytes under it verifies. -/
def Signed (E : Ed25519) (publicKeyHex : Str) (bytes : List UInt8) : Prop :=
  ∃ key sig, hexDecode (trim publicKeyHex) = some key ∧ E.isKey key = true ∧
    E.verifies key bytes sig = true

/-- What an update of a file comes to in a mode. -/
def finalBytes (mode : Mode) (stamp : Str) (existing : Option (List UInt8))
    (content : List UInt8) : Option (List UInt8) :=
  match mode with
  | .replace => some content
  | .merge => (mergeHashLists (fromUtf8Lossy (existing.getD [])) (fromUtf8Lossy content) stamp).map
      utf8

/-- The body came whole, as long as its header says. -/
def Whole (response : Response) (body : List UInt8) : Prop :=
  ∃ contentLength, response = .ok contentLength body false ∧
    ∀ len ∈ contentLength, len.toNat = body.length

/-- What a run made its bytes of: the old file's bytes and those of a file that came whole, signed
where that is required. -/
structure Prepared (req : UpdateRequest F) (answers : Answers) (stamp : Str)
    (existing : Option (List UInt8)) (bytes : List UInt8) : Prop where
  valid : ∃ n, validate W.readers req.target bytes = .ok n
  source : ∃ fetched content, Whole answers.file fetched ∧
    (req.requireSignature = true → Signed W.ed25519 req.publicKeyHex fetched) ∧
    extract W req.url fetched = .ok content ∧
    finalBytes req.mode stamp existing content = some bytes

variable {W} {req : UpdateRequest F} {answers : Answers} {stamp : Str}
  {existing : Option (List UInt8)} {bytes content : List UInt8}

/-- A body is taken exactly when it comes whole, within the limit and as long as declared; under the
greatest limit none is. -/
theorem httpGet_ok_iff {maxBytes : UInt64} {response : Response} :
    httpGet maxBytes response = .ok bytes ↔ maxBytes ≠ -1 ∧
      ∃ contentLength, response = .ok contentLength bytes false ∧ bytes ≠ [] ∧
        bytes.length ≤ maxBytes.toNat ∧ ∀ len ∈ contentLength, len.toNat = bytes.length := by
  have hmax := maxBytes.toNat_lt
  have hlimit : maxBytes = -1 ∧ (maxBytes + 1).toNat = 0 ∨
      maxBytes ≠ -1 ∧ (maxBytes + 1).toNat = maxBytes.toNat + 1 := by
    have hadd : (maxBytes + 1).toNat = (maxBytes.toNat + 1) % 2 ^ 64 := UInt64.toNat_add _ _
    by_cases h : maxBytes = -1
    · subst h
      exact .inl ⟨rfl, rfl⟩
    · have hne : maxBytes.toNat ≠ 2 ^ 64 - 1 := fun he => h (UInt64.toNat_inj.mp he)
      exact .inr ⟨h, by rw [hadd, Nat.mod_eq_of_lt (by omega)]⟩
  cases response with
  | status code => simp [httpGet]
  | failed => simp [httpGet]
  | ok contentLength body interrupted =>
    have hdeclared : (∀ len ∈ contentLength, len.toNat = bytes.length) →
        bytes.length ≤ maxBytes.toNat → contentLength.any (maxBytes < ·) = false := by
      intro h hle
      cases contentLength with
      | none => rfl
      | some len =>
        have hlen := h len rfl
        rw [Option.any_some, decide_eq_false_iff_not, UInt64.lt_iff_toNat_lt]
        omega
    rw [httpGet]
    constructor
    · intro h
      split_ifs at h with hany hinterrupted hlarge hempty htruncated
      cases h
      have hpos := List.length_pos_of_ne_nil hempty
      have htake := List.length_take (i := (maxBytes + 1).toNat) (l := body)
      obtain ⟨hne, hlimit⟩ := hlimit.resolve_left fun h => by omega
      have hbody : body.take (maxBytes + 1).toNat = body := List.take_of_length_le (by omega)
      have hwhole : interrupted = false := by
        rw [Bool.eq_false_iff]
        exact fun hi => hinterrupted ⟨hi, by omega⟩
      refine ⟨hne, contentLength, by rw [hbody, hwhole], hempty, by omega, ?_⟩
      intro len hlen
      rw [Option.mem_def] at hlen
      subst hlen
      simpa using htruncated
    · rintro ⟨hne, _, hresponse, hnil, hle, hlen⟩
      cases hresponse
      obtain ⟨-, hlimit⟩ := hlimit.resolve_left fun h => hne h.1
      have htake : bytes.take (maxBytes + 1).toNat = bytes := List.take_of_length_le (by omega)
      have htruncated : contentLength.any (fun len => len.toNat ≠ bytes.length) = false := by
        cases contentLength with
        | none => rfl
        | some len => simp [hlen len rfl]
      simp only [htake, hdeclared hlen hle, htruncated, hnil, not_lt.mpr hle, Bool.false_eq_true,
        false_and, if_false]

theorem verifySignature_ok {E : Ed25519} {sig : List UInt8} {key : Str}
    (h : verifySignature E bytes sig key = .ok ()) : Signed E key bytes := by
  rw [verifySignature] at h
  split at h
  · rename_i raw hraw
    obtain ⟨-, h⟩ := guard_ok h
    obtain ⟨hkey, h⟩ := guard_ok h
    obtain ⟨parsed, -, h⟩ := bind_ok h
    obtain ⟨hverifies, -⟩ := guard_ok h
    exact ⟨raw, parsed, hraw, not_not.mp hkey, not_not.mp hverifies⟩
  · cases h

theorem checkSignature_ok {answer : Response} (h : checkSignature W req answer bytes = .ok ())
    (hreq : req.requireSignature = true) : Signed W.ed25519 req.publicKeyHex bytes := by
  rw [checkSignature, if_pos hreq] at h
  obtain ⟨-, h⟩ := guard_ok h
  obtain ⟨sig, -, h⟩ := bind_ok h
  exact verifySignature_ok (mapError_ok h)

theorem install_ok {R : Readers} {Q : Quotients F} {target : Target} {mode : Mode} {r : F}
    (h : install R Q target mode r stamp existing content = .ok bytes) :
    (∃ n, validate R target bytes = .ok n) ∧
      finalBytes mode stamp existing content = some bytes := by
  rw [install] at h
  obtain ⟨-, h⟩ := guard_ok h
  obtain ⟨_, -, h⟩ := bind_ok h
  cases mode with
  | replace =>
    obtain ⟨final, hfinal, h⟩ := bind_ok h
    obtain ⟨n, hn, h⟩ := bind_ok h
    obtain ⟨-, h⟩ := guard_ok h
    cases h
    exact ⟨⟨n, mapError_ok hn⟩, congrArg some (Except.ok.inj hfinal)⟩
  | merge =>
    simp only at h
    split at h
    · rename_i s hs
      obtain ⟨final, hfinal, h⟩ := bind_ok h
      obtain ⟨n, hn, h⟩ := bind_ok h
      obtain ⟨-, h⟩ := guard_ok h
      cases h
      refine ⟨⟨n, mapError_ok hn⟩, ?_⟩
      rw [finalBytes, hs, ← Except.ok.inj hfinal]
      rfl
    · cases h

theorem prepared (h : prepare W req answers stamp existing = .ok bytes) :
    Prepared W req answers stamp existing bytes := by
  rw [prepare] at h
  obtain ⟨-, h⟩ := guard_ok h
  obtain ⟨-, h⟩ := guard_ok h
  obtain ⟨fetched, hfetched, h⟩ := bind_ok h
  obtain ⟨-, contentLength, hresponse, -, -, hlength⟩ := httpGet_ok_iff.mp (mapError_ok hfetched)
  obtain ⟨_, hsigned, h⟩ := bind_ok h
  obtain ⟨content, hcontent, h⟩ := bind_ok h
  obtain ⟨hvalid, hmode⟩ := install_ok (mapError_ok h)
  exact ⟨hvalid, fetched, content, ⟨contentLength, hresponse, hlength⟩,
    checkSignature_ok hsigned, hcontent, hmode⟩

end Ed2kServer.Updates.Fetch
