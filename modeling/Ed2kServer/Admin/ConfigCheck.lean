import Ed2kServer.Admin.Auth
import Ed2kServer.Filter.Loaders
import Ed2kServer.Text.IpAddress

namespace Ed2kServer.Admin.ConfigCheck

open Ed2kServer.Admin.Auth Ed2kServer.Filter.Loaders Ed2kServer.Sources.Address
  Ed2kServer.Text.IpAddress Ed2kServer.Text.Lines

def MIN_ITERATIONS : Nat := 100000

inductive PasswordHashError
  | format
  | scheme (scheme : Str)
  | notANumber (iter : Str)
  | tooFew (iterations : Nat)
  | saltNotHex
  | saltTooShort
  | hashNotHex
  deriving DecidableEq

structure PasswordHash where
  iterations : Nat
  salt : List UInt8
  hash : Vector UInt8 32
  deriving DecidableEq

def toHash32 (bytes : List UInt8) : Option (Vector UInt8 32) :=
  if bytes.length = 32 then some (Vector.ofFn fun i => bytes.getD i 0) else none

def PasswordHash.parse (s : Str) : Except PasswordHashError PasswordHash :=
  match (trim s).splitOn '$' with
  | [scheme, iter, salt, hash] =>
    if scheme ≠ "pbkdf2-sha256".toList then .error (.scheme scheme)
    else
      match parseUnsigned 0xFFFFFFFF iter with
      | none => .error (.notANumber iter)
      | some iterations =>
        if iterations < MIN_ITERATIONS then .error (.tooFew iterations)
        else
          match hexDecode salt with
          | none => .error .saltNotHex
          | some salt =>
            if salt.length < 8 then .error .saltTooShort
            else
              match (hexDecode hash).bind toHash32 with
              | none => .error .hashNotHex
              | some hash => .ok ⟨iterations, salt, hash⟩
  | _ => .error .format

inductive Mode
  | off
  | selfSigned
  | files
  deriving DecidableEq

def Mode.parse (s : Str) : Option Mode :=
  let s := trim s
  if s = [] ∨ s = "off".toList then some .off
  else if s = "self-signed".toList then some .selfSigned
  else if s = "files".toList then some .files
  else none

/-- What a setting is refused for, with the setting where it is not clear which. -/
inductive ConfigError
  | template (key : String) (value : Str)
  | noHashBanlist
  | admissionZero (name : String)
  | sourcePrefixBits (bits : UInt8)
  | adminBind (bind : Str)
  | adminPasswordHash (e : PasswordHashError)
  | noPassword (ip : IpAddr)
  | adminTls (tls : Str)
  | tlsFilesMissing
  | tlsCaIncomplete
  | tlsCaUnused
  | tlsName (n : Str)
  | frameSizeZero
  | searchResultsZero
  | searchResultsCeiling (results : UInt32)
  | rankScanBelowResults (scan results : UInt32)
  deriving DecidableEq

structure AdminConfig where
  enabled : Bool
  port : UInt16
  bind : Str
  passwordHash : Str
  tls : Str
  tlsCert : Str
  tlsKey : Str
  tlsCaCert : Str
  tlsCaKey : Str
  tlsNames : List Str
  deriving DecidableEq

namespace AdminConfig

def checkBind (a : AdminConfig) : Except ConfigError IpAddr :=
  match parseIpAddr (trim a.bind) with
  | none => .error (.adminBind a.bind)
  | some ip => .ok ip

def checkPassword (a : AdminConfig) (ip : IpAddr) : Except ConfigError Unit :=
  if trim a.passwordHash ≠ [] then
    match PasswordHash.parse a.passwordHash with
    | .error e => .error (.adminPasswordHash e)
    | .ok _ => .ok ()
  else if !isLoopback ip then .error (.noPassword ip)
  else .ok ()

def checkTls (a : AdminConfig) : Except ConfigError Unit :=
  match Mode.parse a.tls with
  | none => .error (.adminTls a.tls)
  | some mode =>
    let caCert := trim a.tlsCaCert ≠ []
    let caKey := trim a.tlsCaKey ≠ []
    if mode = .files ∧ (trim a.tlsCert = [] ∨ trim a.tlsKey = []) then .error .tlsFilesMissing
    else if ¬ (caCert ↔ caKey) then .error .tlsCaIncomplete
    else if caCert ∧ mode ≠ .selfSigned then .error .tlsCaUnused
    else .ok ()

/-- `char::is_ascii_alphanumeric`, or a hyphen. -/
def isLabelChar (c : Char) : Bool := c.isAlphanum || c == '-'

def dnsOk (n : Str) : Bool :=
  !n.isEmpty && (utf8 n).length ≤ 253 &&
    (n.splitOn '.').all fun l => !l.isEmpty && (utf8 l).length ≤ 63 && l.all isLabelChar

def checkName (name : Str) : Except ConfigError Unit :=
  let n := trim name
  if (parseIpAddr n).isNone && !dnsOk n then .error (.tlsName n) else .ok ()

def validate (a : AdminConfig) : Except ConfigError Unit :=
  if !a.enabled then .ok ()
  else
    a.checkBind.bind fun ip =>
      (a.checkPassword ip).bind fun _ =>
        a.checkTls.bind fun _ => a.tlsNames.forM checkName

end AdminConfig

structure AdmissionConfig where
  maxOpenTcpConnections : Option UInt32
  maxPendingLogins : UInt32
  maxPendingLoginsPerSource : UInt32
  maxProbeJobs : Option UInt32
  maxRetryTasks : UInt32
  sessionRelayPerSecond : UInt32
  sessionRelayBurst : UInt32
  maxSearchJobs : UInt32
  maxQueuedTcpSearches : UInt32
  tcpSearchWaitMs : UInt64
  maxQueuedUdpSearches : UInt32
  udpSearchWaitMs : UInt64
  maxRateStateEntries : UInt32
  ipv6SourcePrefixBits : UInt8
  udpGlobalCreditsPerSecond : UInt32
  udpGlobalBurstCredits : UInt32
  udpSourceCreditsPerSecond : UInt32
  udpSourceBurstCredits : UInt32
  udpRateEnforce : Bool
  readinessWindowSecs : UInt64
  deriving DecidableEq

def saturatingAdd (a b : UInt32) : UInt32 := UInt32.ofNat (min (a.toNat + b.toNat) 0xFFFFFFFF)

namespace AdmissionConfig

/-- What must not be zero, in the order of the checks. -/
def nonzero (a : AdmissionConfig) : List (String × UInt64) :=
  [("max_pending_logins_per_source", a.maxPendingLoginsPerSource.toUInt64),
    ("max_queued_udp_searches", a.maxQueuedUdpSearches.toUInt64),
    ("udp_search_wait_ms", a.udpSearchWaitMs),
    ("max_probe_jobs", a.maxProbeJobs.elim 1 UInt32.toUInt64),
    ("readiness_window_secs", a.readinessWindowSecs),
    ("max_pending_logins", a.maxPendingLogins.toUInt64),
    ("max_retry_tasks", a.maxRetryTasks.toUInt64),
    ("session_relay_per_second", a.sessionRelayPerSecond.toUInt64),
    ("session_relay_burst", a.sessionRelayBurst.toUInt64),
    ("max_search_jobs", a.maxSearchJobs.toUInt64),
    ("max_queued_tcp_searches", a.maxQueuedTcpSearches.toUInt64),
    ("tcp_search_wait_ms", a.tcpSearchWaitMs),
    ("max_rate_state_entries", a.maxRateStateEntries.toUInt64),
    ("udp_global_credits_per_second", a.udpGlobalCreditsPerSecond.toUInt64),
    ("udp_global_burst_credits", a.udpGlobalBurstCredits.toUInt64),
    ("udp_source_credits_per_second", a.udpSourceCreditsPerSecond.toUInt64),
    ("udp_source_burst_credits", a.udpSourceBurstCredits.toUInt64),
    ("max_open_tcp_connections", a.maxOpenTcpConnections.elim 1 UInt32.toUInt64)]

def validate (a : AdmissionConfig) : Except ConfigError Unit :=
  match a.nonzero.find? fun entry => entry.2 == 0 with
  | some entry => .error (.admissionZero entry.1)
  | none =>
    if 16 ≤ a.ipv6SourcePrefixBits ∧ a.ipv6SourcePrefixBits ≤ 128 then .ok ()
    else .error (.sourcePrefixBits a.ipv6SourcePrefixBits)

/-- `max_open_tcp_connections`, or its default derived from the limits. -/
def effectiveOpenTcp (a : AdmissionConfig) (maxClients : UInt32) : UInt32 :=
  a.maxOpenTcpConnections.getD <|
    if maxClients = 0 then 200000
    else saturatingAdd (saturatingAdd maxClients (maxClients / 10)) a.maxPendingLogins

end AdmissionConfig

def MAX_SEARCH_RESULTS_CEILING : UInt32 := 5000

/-- The settings that are looked at here, and the rest. -/
structure Config (Rest : Type) where
  name : Str
  thisIp : Str
  isPublic : Bool
  hashBanlist : List Str
  tcpPort : UInt16
  maxDecompressedFrameSize : UInt32
  maxClients : UInt32
  maxSearchResults : UInt32
  searchRankScan : UInt32
  admission : AdmissionConfig
  admin : AdminConfig
  rest : Rest
  deriving DecidableEq

namespace Config

variable {Rest : Type}

def checkTemplate (key : String) (value : Str) : Except ConfigError Unit :=
  if (splitFirst "CHANGE_ME".toList value).isSome then .error (.template key value) else .ok ()

def checkLimits (c : Config Rest) : Except ConfigError Unit :=
  if c.maxDecompressedFrameSize = 0 then .error .frameSizeZero
  else if c.maxSearchResults = 0 then .error .searchResultsZero
  else if MAX_SEARCH_RESULTS_CEILING < c.maxSearchResults then
    .error (.searchResultsCeiling c.maxSearchResults)
  else if c.searchRankScan < c.maxSearchResults then
    .error (.rankScanBelowResults c.searchRankScan c.maxSearchResults)
  else .ok ()

def validate (c : Config Rest) : Except ConfigError Unit :=
  (checkTemplate "server.name" c.name).bind fun _ =>
    (checkTemplate "server.this_ip" c.thisIp).bind fun _ =>
      if c.isPublic ∧ c.hashBanlist = [] then .error .noHashBanlist
      else c.admission.validate.bind fun _ => c.admin.validate.bind fun _ => c.checkLimits

/-- What the new settings change that only a restart applies. -/
def restartNeeded (old new : Config Rest) : List String :=
  (if old.tcpPort ≠ new.tcpPort then ["network.tcp_port"] else []) ++
  (if old.admin ≠ new.admin then
    ["admin.port / enabled / bind / password_hash / tls*"] else []) ++
  if old.admission ≠ new.admission ∨ old.admission.effectiveOpenTcp old.maxClients ≠
      new.admission.effectiveOpenTcp new.maxClients then
    ["admission (incl. the open-socket ceiling derived from limits.max_clients)"]
  else []

end Config

theorem bind_eq_ok {α β : Type} {x : Except ConfigError α} {f : α → Except ConfigError β} {b : β} :
    x.bind f = .ok b ↔ ∃ a, x = .ok a ∧ f a = .ok b := by
  cases x <;> simp [Except.bind]

theorem forM_eq_ok {α : Type} {xs : List α} {check : α → Except ConfigError Unit} :
    xs.forM check = .ok () ↔ ∀ x ∈ xs, check x = .ok () := by
  induction xs with
  | nil => exact ⟨fun _ x hx => absurd hx List.not_mem_nil, fun _ => rfl⟩
  | cons x xs ih =>
    have hcons : (x :: xs).forM check = (check x).bind fun _ => xs.forM check := rfl
    rw [hcons, bind_eq_ok, List.forall_mem_cons, ← ih]
    exact ⟨fun h => ⟨h.choose_spec.1, h.choose_spec.2⟩, fun h => ⟨(), h⟩⟩

variable {a : AdminConfig}

/-- The names of a panel that is on are addresses or DNS names. -/
theorem AdminConfig.names_of_validate (h : a.validate = .ok ()) (hon : a.enabled = true) :
    ∀ n ∈ a.tlsNames, (parseIpAddr (trim n)).isSome = true ∨ dnsOk (trim n) = true := by
  rw [validate, hon, if_neg (by simp)] at h
  obtain ⟨ip, -, h⟩ := bind_eq_ok.mp h
  obtain ⟨-, -, h⟩ := bind_eq_ok.mp h
  obtain ⟨-, -, h⟩ := bind_eq_ok.mp h
  intro n hn
  have hname := forM_eq_ok.mp h n hn
  rw [checkName] at hname
  split_ifs at hname with hcond
  rw [Bool.and_eq_true, not_and_or] at hcond
  simpa [Option.isSome_iff_ne_none] using hcond

/-- A character stands in a piece or parts two. -/
theorem mem_splitOn {sep c : Char} {s : Str} (h : c ∈ s) :
    c = sep ∨ ∃ piece ∈ s.splitOn sep, c ∈ piece := by
  induction s with
  | nil => exact absurd h List.not_mem_nil
  | cons d s ih =>
    rw [List.splitOn_cons_eq_if_modifyHead]
    by_cases hd : d = sep
    · rw [if_pos (beq_iff_eq.mpr hd)]
      obtain rfl | hc := List.mem_cons.mp h
      · exact Or.inl hd
      · refine (ih hc).imp_right ?_
        rintro ⟨piece, hpiece, hmem⟩
        exact ⟨piece, List.mem_cons_of_mem _ hpiece, hmem⟩
    · rw [if_neg (by simpa using hd)]
      obtain ⟨first, others, hs⟩ := List.exists_cons_of_ne_nil (List.splitOn_ne_nil sep s)
      rw [hs] at ih ⊢
      rw [List.modifyHead_cons]
      obtain rfl | hc := List.mem_cons.mp h
      · exact Or.inr ⟨_, List.mem_cons_self, List.mem_cons_self⟩
      · refine (ih hc).imp_right ?_
        rintro ⟨piece, hpiece, hmem⟩
        obtain rfl | hpiece := List.mem_cons.mp hpiece
        · exact ⟨_, List.mem_cons_self, List.mem_cons_of_mem _ hmem⟩
        · exact ⟨piece, List.mem_cons_of_mem _ hpiece, hmem⟩

theorem AdminConfig.labelChar_of_dnsOk {n : Str} (h : dnsOk n = true) :
    ∀ c ∈ n, isLabelChar c = true ∨ c = '.' := by
  rw [dnsOk, Bool.and_eq_true, List.all_eq_true] at h
  intro c hc
  have hpiece : c = '.' ∨ ∃ label ∈ n.splitOn '.', c ∈ label := mem_splitOn hc
  rcases hpiece with hdot | ⟨label, hlabel, hmem⟩
  · exact Or.inr hdot
  · have hone := h.2 label hlabel
    simp only [Bool.and_eq_true, List.all_eq_true] at hone
    exact Or.inl (hone.2 c hmem)

end Ed2kServer.Admin.ConfigCheck
