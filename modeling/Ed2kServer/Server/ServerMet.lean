import Ed2kServer.Lib.ByteReader
import Ed2kServer.Sources.Address
import Ed2kServer.Text.Cut
import Ed2kServer.Text.Lines

namespace Ed2kServer.Server.ServerMet

open Ed2kServer.Lib.LittleEndian Ed2kServer.Lib.ByteReader Ed2kServer.Sources.Address
open Ed2kServer.Text.Chars Ed2kServer.Text.Cut Ed2kServer.Text.Lines

def ST_SERVERNAME : UInt8 := 0x01
def ST_DESCRIPTION : UInt8 := 0x0B
def ST_PING : UInt8 := 0x0C
def ST_PREFERENCE : UInt8 := 0x0E
def ST_MAXUSERS : UInt8 := 0x87
def ST_SOFTFILES : UInt8 := 0x88
def ST_HARDFILES : UInt8 := 0x89
def ST_VERSION : UInt8 := 0x91
def ST_UDPFLAGS : UInt8 := 0x92
def ST_LOWIDUSERS : UInt8 := 0x94
def ST_TCPPORTOBFUSCATION : UInt8 := 0x97
def ST_UDPPORTOBFUSCATION : UInt8 := 0x98

def PREFERENCE_NORMAL : UInt32 := 0

/-- One server as it goes into the file. -/
structure MetEntry where
  ip : Ipv4
  port : UInt16
  name : Option Str
  desc : Option Str
  version : Option Str
  users : Option UInt32
  files : Option UInt32
  pingMs : Option UInt32
  maxUsers : Option UInt32
  softFiles : Option UInt32
  hardFiles : Option UInt32
  udpFlags : Option UInt32
  lowidUsers : Option UInt32
  obfTcpPort : Option UInt16
  obfUdpPort : Option UInt16

def putName (ty : UInt8) (name : List UInt8) : List UInt8 := ty :: leBytes 2 name.length ++ name

def putU32 (name : List UInt8) (v : UInt32) : List UInt8 := putName 3 name ++ leBytes 4 v.toNat

/-- The longest string written, in bytes. -/
def MAX_STR : Nat := 4096

/-- The mark in front of what is not plain ASCII. -/
def bom (v : Str) : List UInt8 := if isAscii v then [] else [0xEF, 0xBB, 0xBF]

def putStr (name : List UInt8) (v : Str) : List UInt8 :=
  let bytes := bom v ++ cutBytes MAX_STR v
  putName 2 name ++ leBytes 2 bytes.length ++ bytes

def text (s : Option Str) : Option Str := (s.map trim).filter (! ·.isEmpty)

/-- The tags written for a server so far, and how many. -/
structure Tags where
  bytes : List UInt8
  n : UInt32

def Tags.string (tags : Tags) (id : UInt8) (v : Option Str) : Tags :=
  match text v with
  | some v => ⟨tags.bytes ++ putStr [id] v, tags.n + 1⟩
  | none => tags

def Tags.number (tags : Tags) (name : List UInt8) (v : Option UInt32) : Tags :=
  match v with
  | some v => ⟨tags.bytes ++ putU32 name v, tags.n + 1⟩
  | none => tags

/-- The number tags of a server behind its name and description. -/
def MetEntry.numbers (e : MetEntry) : List (List UInt8 × Option UInt32) :=
  [(utf8 "users".toList, e.users), (utf8 "files".toList, e.files), ([ST_PING], e.pingMs),
    ([ST_MAXUSERS], e.maxUsers), ([ST_SOFTFILES], e.softFiles), ([ST_HARDFILES], e.hardFiles),
    ([ST_UDPFLAGS], e.udpFlags), ([ST_LOWIDUSERS], e.lowidUsers),
    ([ST_TCPPORTOBFUSCATION], e.obfTcpPort.map UInt16.toUInt32),
    ([ST_UDPPORTOBFUSCATION], e.obfUdpPort.map UInt16.toUInt32)]

def MetEntry.tags (e : MetEntry) : Tags :=
  let tags := ((Tags.mk [] 0).string ST_SERVERNAME e.name).string ST_DESCRIPTION e.desc
  let tags : Tags := ⟨tags.bytes ++ putU32 [ST_PREFERENCE] PREFERENCE_NORMAL, tags.n + 1⟩
  let tags := e.numbers.foldl (fun tags (name, v) => tags.number name v) tags
  tags.string ST_VERSION e.version

def MetEntry.write (e : MetEntry) : List UInt8 :=
  leBytes 4 e.ip.toNat ++ leBytes 2 e.port.toNat ++ leBytes 4 e.tags.n.toNat ++ e.tags.bytes

/-- The bytes of the file; the count is cast to a `u32`. -/
def build (entries : List MetEntry) : List UInt8 :=
  0xE0 :: leBytes 4 entries.length ++ entries.flatMap MetEntry.write

section Reader

inductive ReadError
  | underrun
  | badHeader
  | badType

inductive MetValue
  | string (bytes : List UInt8)
  | u32 (v : Nat)
  deriving DecidableEq

abbrev MetTag := List UInt8 × MetValue

def readValue (ty : Nat) : Reader ReadError MetValue :=
  if ty = 2 then do
    let len ← number .underrun 2
    let bytes ← take .underrun len
    return .string bytes
  else do
    let v ← number .underrun 4
    return .u32 v

def readTag : Reader ReadError MetTag := do
  let ty ← number .underrun 1
  if ty ≠ 2 ∧ ty ≠ 3 then fail .badType
  else
    let len ← number .underrun 2
    let name ← take .underrun len
    let value ← readValue ty
    return (name, value)

/-- Exactly `n` items. -/
def times {α : Type} (item : Reader ReadError α) : Nat → Reader ReadError (List α)
  | 0 => pure []
  | n + 1 => do
    let a ← item
    let rest ← times item n
    return a :: rest

/-- A server of the file: address, port and tags. -/
def readServer : Reader ReadError (Nat × Nat × List MetTag) := do
  let ip ← number .underrun 4
  let port ← number .underrun 2
  let n ← number .underrun 4
  let tags ← times readTag n
  return (ip, port, tags)

def readServers : Reader ReadError (List (Nat × Nat × List MetTag)) := do
  let header ← number .underrun 1
  if header ≠ 0xE0 then fail .badHeader
  else
    let n ← number .underrun 4
    times readServer n

/-- What a reader takes from the file; bytes left over are refused. -/
def read (bytes : List UInt8) : Option (List (Nat × Nat × List MetTag)) :=
  match readServers bytes with
  | (.ok servers, []) => some servers
  | _ => none

end Reader

/-- The tag of a string field: trimmed, cut between characters, and marked if not plain ASCII. -/
def stringTag (id : UInt8) (v : Option Str) : List MetTag :=
  ((text v).map fun v => ([id], MetValue.string (bom v ++ utf8 (cutAt MAX_STR v)))).toList

def numberTag (name : List UInt8) (v : Option UInt32) : List MetTag :=
  (v.map fun v => (name, MetValue.u32 v.toNat)).toList

/-- The tags of the fields that are present. -/
def MetEntry.present (e : MetEntry) : List MetTag :=
  stringTag ST_SERVERNAME e.name ++ stringTag ST_DESCRIPTION e.desc ++
    [([ST_PREFERENCE], .u32 PREFERENCE_NORMAL.toNat)] ++
    e.numbers.flatMap (fun x => numberTag x.1 x.2) ++ stringTag ST_VERSION e.version

section Written

variable {tags : Tags} {ts : List MetTag}

def typeOf : MetValue → UInt8
  | .string _ => 2
  | .u32 _ => 3

def valueBytes : MetValue → List UInt8
  | .string bytes => leBytes 2 bytes.length ++ bytes
  | .u32 v => leBytes 4 v

def tagBytes (t : MetTag) : List UInt8 := putName (typeOf t.2) t.1 ++ valueBytes t.2

/-- The lengths of a tag fit their fields. -/
def Fits (t : MetTag) : Prop :=
  t.1.length < 256 ^ 2 ∧
    match t.2 with
    | .string bytes => bytes.length < 256 ^ 2
    | .u32 v => v < 256 ^ 4

theorem reads_value {value : MetValue} {name : List UInt8} (h : Fits (name, value)) :
    Reads (readValue (typeOf value).toNat) (valueBytes value) value := by
  cases value with
  | string bytes =>
    exact reads_bind (reads_number ReadError.underrun (k := 2) h.2)
      (reads_map (reads_take ReadError.underrun bytes) MetValue.string)
  | u32 v => exact reads_map (reads_number ReadError.underrun (k := 4) h.2) MetValue.u32

theorem reads_type (b : UInt8) : Reads (number ReadError.underrun 1) [b] b.toNat := by
  have h := reads_number ReadError.underrun (k := 1) (n := b.toNat) b.toNat_lt
  rwa [leBytes, leBytes, Nat.mod_eq_of_lt b.toNat_lt, UInt8.ofNat_toNat] at h

theorem reads_tag {t : MetTag} (ht : Fits t) : Reads readTag (tagBytes t) t := by
  obtain ⟨name, value⟩ := t
  have hbytes : tagBytes (name, value) =
      [typeOf value] ++ (leBytes 2 name.length ++ (name ++ valueBytes value)) := by
    rw [tagBytes, putName]
    simp
  rw [hbytes]
  refine reads_bind (reads_type (typeOf value)) ?_
  have htype : ¬((typeOf value).toNat ≠ 2 ∧ (typeOf value).toNat ≠ 3) := by
    cases value <;> simp [typeOf]
  rw [if_neg htype]
  refine reads_bind (reads_number ReadError.underrun ht.1) ?_
  refine reads_bind (reads_take ReadError.underrun name) ?_
  exact reads_map (reads_value ht) fun value => (name, value)

theorem reads_times {α β : Type} {item : Reader ReadError α} {write : β → List UInt8}
    {value : β → α} {cs : List β} (h : ∀ c ∈ cs, Reads item (write c) (value c)) :
    Reads (times item cs.length) (cs.flatMap write) (cs.map value) := by
  induction cs with
  | nil => exact reads_pure []
  | cons c cs ih =>
    obtain ⟨hc, hcs⟩ := List.forall_mem_cons.mp h
    rw [List.flatMap_cons]
    exact reads_bind hc (reads_map (ih hcs) (value c :: ·))

/-- The bytes of the tags, and their number. -/
def Written (tags : Tags) (ts : List MetTag) : Prop :=
  tags.bytes = ts.flatMap tagBytes ∧ tags.n = UInt32.ofNat ts.length

theorem Written.push {t : MetTag} (h : Written tags ts) :
    Written ⟨tags.bytes ++ tagBytes t, tags.n + 1⟩ (ts ++ [t]) := by
  refine ⟨?_, ?_⟩
  · rw [List.flatMap_append, List.flatMap_singleton, h.1]
  · rw [List.length_append, List.length_singleton, h.2]
    exact (UInt32.ofNat_add _ _).symm

theorem Written.string (h : Written tags ts) (id : UInt8) (v : Option Str) :
    Written (tags.string id v) (ts ++ stringTag id v) := by
  rw [Tags.string, stringTag]
  cases text v with
  | none =>
    rw [Option.map_none, Option.toList_none, List.append_nil]
    exact h
  | some v =>
    have hpush := h.push (t := ([id], .string (bom v ++ utf8 (cutAt MAX_STR v))))
    rw [tagBytes, ← cutBytes_eq] at hpush
    rw [Option.map_some, Option.toList_some, ← cutBytes_eq]
    exact hpush

theorem Written.number (h : Written tags ts) (name : List UInt8) (v : Option UInt32) :
    Written (tags.number name v) (ts ++ numberTag name v) := by
  cases v with
  | none => exact (List.append_nil ts).symm ▸ h
  | some v => exact h.push (t := (name, .u32 v.toNat))

theorem Written.numbers (h : Written tags ts) (xs : List (List UInt8 × Option UInt32)) :
    Written (xs.foldl (fun tags (name, v) => tags.number name v) tags)
      (ts ++ xs.flatMap fun x => numberTag x.1 x.2) := by
  induction xs generalizing tags ts with
  | nil => exact (List.append_nil ts).symm ▸ h
  | cons x xs ih =>
    rw [List.foldl_cons, List.flatMap_cons, ← List.append_assoc]
    exact ih (h.number x.1 x.2)

theorem written_tags (e : MetEntry) : Written e.tags e.present := by
  have hnil : Written ⟨[], 0⟩ [] := ⟨rfl, rfl⟩
  have hfront := ((hnil.string ST_SERVERNAME e.name).string ST_DESCRIPTION e.desc).push
    (t := ([ST_PREFERENCE], .u32 PREFERENCE_NORMAL.toNat))
  have h := (hfront.numbers e.numbers).string ST_VERSION e.version
  rw [List.nil_append] at h
  exact h

theorem bom_length_le (v : Str) : (bom v).length ≤ 3 := by
  rw [bom]
  split_ifs <;> decide

theorem fits_stringTag (id : UInt8) (v : Option Str) : ∀ t ∈ stringTag id v, Fits t := by
  intro t ht
  obtain ⟨w, -, rfl⟩ := Option.map_eq_some_iff.mp (Option.mem_toList.mp ht)
  have hbom := bom_length_le w
  have hcut := length_cutAt_le MAX_STR w
  have hlen : (bom w ++ utf8 (cutAt MAX_STR w)).length < 256 ^ 2 := by
    rw [List.length_append]
    rw [MAX_STR] at hcut ⊢
    omega
  exact ⟨(by decide : 1 < 256 ^ 2), hlen⟩

theorem fits_numberTag {name : List UInt8} (hname : name.length < 256 ^ 2) (v : Option UInt32) :
    ∀ t ∈ numberTag name v, Fits t := by
  intro t ht
  obtain ⟨w, -, rfl⟩ := Option.map_eq_some_iff.mp (Option.mem_toList.mp ht)
  exact ⟨hname, w.toNat_lt⟩

/-- No length field is truncated. -/
theorem fits_present (e : MetEntry) : ∀ t ∈ e.present, Fits t := by
  intro t ht
  simp only [MetEntry.present, List.mem_append, List.mem_singleton, List.mem_flatMap] at ht
  obtain (((ht | ht) | rfl) | ⟨x, hx, ht⟩) | ht := ht
  · exact fits_stringTag _ _ t ht
  · exact fits_stringTag _ _ t ht
  · exact ⟨by decide, by decide⟩
  · have hnames : (e.numbers.map Prod.fst).all (fun name => decide (name.length < 256 ^ 2)) = true :=
      rfl
    have hname := List.all_eq_true.mp hnames x.1 (List.mem_map_of_mem hx)
    exact fits_numberTag (of_decide_eq_true hname) x.2 t ht
  · exact fits_stringTag _ _ t ht

theorem length_stringTag_le (id : UInt8) (v : Option Str) : (stringTag id v).length ≤ 1 :=
  Option.length_toList_le

theorem length_numberTag_le (name : List UInt8) (v : Option UInt32) :
    (numberTag name v).length ≤ 1 := Option.length_toList_le

/-- The count of the tags is not truncated. -/
theorem length_present (e : MetEntry) : e.present.length ≤ 14 := by
  have hnumbers (xs : List (List UInt8 × Option UInt32)) :
      (xs.flatMap fun x => numberTag x.1 x.2).length ≤ xs.length := by
    induction xs with
    | nil => exact Nat.le_refl 0
    | cons x xs ih =>
      have hx := length_numberTag_le x.1 x.2
      rw [List.flatMap_cons, List.length_append, List.length_cons]
      omega
  have h₁ := length_stringTag_le ST_SERVERNAME e.name
  have h₂ := length_stringTag_le ST_DESCRIPTION e.desc
  have h₃ := length_stringTag_le ST_VERSION e.version
  have h₄ := hnumbers e.numbers
  have hten : e.numbers.length = 10 := rfl
  simp only [MetEntry.present, List.length_append, List.length_singleton]
  omega

theorem reads_server (e : MetEntry) :
    Reads readServer e.write (e.ip.toNat, e.port.toNat, e.present) := by
  obtain ⟨hbytes, hn⟩ := written_tags e
  have hcount : e.tags.n.toNat = e.present.length := by
    have hlen := length_present e
    rw [hn, UInt32.toNat_ofNat_of_lt' (Nat.lt_of_le_of_lt hlen (by decide))]
  have htags : Reads (times readTag e.present.length) (e.present.flatMap tagBytes)
      (e.present.map id) := reads_times fun t ht => reads_tag (fits_present e t ht)
  rw [List.map_id, ← hbytes, ← hcount] at htags
  rw [MetEntry.write, List.append_assoc, List.append_assoc]
  refine reads_bind (reads_number ReadError.underrun e.ip.toNat_lt) ?_
  refine reads_bind (reads_number ReadError.underrun e.port.toNat_lt) ?_
  refine reads_bind (reads_number ReadError.underrun e.tags.n.toNat_lt) ?_
  exact reads_map htags fun tags => (e.ip.toNat, e.port.toNat, tags)

/-- Behind the header stand as many servers as the count field holds. -/
theorem readServers_build (entries : List MetEntry) :
    readServers (build entries) =
      times readServer (entries.length % 256 ^ 4) (entries.flatMap MetEntry.write) := by
  have hbytes : build entries = [0xE0] ++ (leBytes 4 (entries.length % 256 ^ 4) ++
      entries.flatMap MetEntry.write) := by
    rw [build, leBytes_mod]
    rfl
  have hcount : Reads (number ReadError.underrun 4) (leBytes 4 (entries.length % 256 ^ 4))
      (entries.length % 256 ^ 4) :=
    reads_number ReadError.underrun (Nat.mod_lt _ (by decide))
  rw [readServers, hbytes, bind_of_reads (reads_type 0xE0), if_neg (by decide),
    bind_of_reads hcount]

theorem readServers_small {entries : List MetEntry} (h : entries.length < 2 ^ 32) :
    readServers (build entries) =
      (.ok (entries.map fun e => (e.ip.toNat, e.port.toNat, e.present)), []) := by
  have hservers := reads_times (fun e (_ : e ∈ entries) => reads_server e) []
  rw [List.append_nil] at hservers
  rw [readServers_build, Nat.mod_eq_of_lt (by simpa using h), hservers]

end Written

/-- A list of fewer than `2 ^ 32` servers is read back to its last byte, each server with its
address, its port and the tags of its present fields, and each string cut to the longest run of
whole characters that fits. -/
theorem read_build {entries : List MetEntry} (h : entries.length < 2 ^ 32) :
    read (build entries) = some (entries.map fun e => (e.ip.toNat, e.port.toNat, e.present)) ∧
      ∀ v : Str, cutAt MAX_STR v <+: v ∧ (utf8 (cutAt MAX_STR v)).length ≤ MAX_STR ∧
        ∀ p, p <+: v → (utf8 p).length ≤ MAX_STR → p <+: cutAt MAX_STR v := by
  refine ⟨by rw [read, readServers_small h], fun v => ⟨cutAt_isPrefix _ v, length_cutAt_le _ v, ?_⟩⟩
  rintro p ⟨t, rfl⟩ hp
  exact prefix_cutAt hp

/-- A server of which only the name is known. -/
def named (name : Str) : MetEntry where
  ip := 0x0100000A
  port := 4661
  name := some name
  desc := none
  version := none
  users := none
  files := none
  pingMs := none
  maxUsers := none
  softFiles := none
  hardFiles := none
  udpFlags := none
  lowidUsers := none
  obfTcpPort := none
  obfUdpPort := none

theorem named_read_back : read (build [named "Сервер".toList]) =
    some [(0x0100000A, 4661, (named "Сервер".toList).present)] :=
  (read_build (by decide : [named "Сервер".toList].length < 2 ^ 32)).1

theorem count_truncated : ¬∀ entries : List MetEntry,
    read (build entries) = some (entries.map fun e => (e.ip.toNat, e.port.toNat, e.present)) := by
  intro h
  have hlong : ∀ entries : List MetEntry, entries ≠ [] → entries.length % 256 ^ 4 = 0 →
      read (build entries) = none := by
    intro entries hne hlen
    obtain ⟨e, rest, rfl⟩ := List.exists_cons_of_ne_nil hne
    rw [read, readServers_build, hlen]
    rfl
  have hmany := hlong (List.replicate (2 ^ 32) (named []))
    (by rw [ne_eq, List.replicate_eq_nil_iff]; norm_num)
    (by rw [List.length_replicate]; norm_num)
  rw [h] at hmany
  cases hmany

end Ed2kServer.Server.ServerMet
