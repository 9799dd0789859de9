import Ed2kServer.Admin.ConfigCheck
import Ed2kServer.Filter.Check
import Ed2kServer.Text.Trim

namespace Ed2kServer.Admin.HostCheck

open Ed2kServer.Admin.ConfigCheck Ed2kServer.Filter.Check Ed2kServer.Text.Chars
  Ed2kServer.Text.IpAddress Ed2kServer.Text.Lines Ed2kServer.Text.Trim

/-- `str::trim_end_matches` of a dot. -/
def trimEndDots (s : Str) : Str := s.rdropWhile (· = '.')

/-- The part of a `Host` header that is looked up. -/
def hostName (host : Str) : Option Str :=
  match host with
  | '[' :: rest => (splitFirst [']'] rest).map Prod.fst
  | _ => some ((splitLast ':' host).elim host Prod.fst)

def nameAllowed (admin : AdminConfig) (name : Str) : Bool :=
  let name := toAsciiLowercase (trimEndDots name)
  (parseIpAddr name).isSome || name == "localhost".toList ||
    admin.tlsNames.any fun n =>
      toAsciiLowercase (trimEndDots (trim n)) == toAsciiLowercase name

/-- Of a `Host` header that is text. -/
def hostAllowed (header : Option Str) (admin : AdminConfig) : Bool :=
  match header with
  | none => false
  | some host =>
    match hostName (trim host) with
    | some name => nameAllowed admin name
    | none => false

/-- `str::split` of the line end. -/
def splitCrLf : Str → List Str
  | [] => [[]]
  | '\r' :: '\n' :: rest => [] :: splitCrLf rest
  | c :: rest => (splitCrLf rest).modifyHead (c :: ·)

def isAsciiGraphic (b : UInt8) : Bool := 33 ≤ b.toNat && b.toNat ≤ 126

def hostHeader (l : Str) : Option Str :=
  match splitFirst [':'] l with
  | some (k, v) => if toAsciiLowercase (trim k) = "host".toList then some (trim v) else none
  | none => none

/-- Origin-form only: not `//host` or an absolute URL. -/
def pathOf (target : Str) : Str :=
  if target.head? = some '/' ∧ ¬ ['/', '/'] <+: target then target else ['/']

/-- The path and the host that a plain-HTTP request head asks for. -/
def request (head : List UInt8) : Option (Str × Str) :=
  match (fromUtf8 head).map splitCrLf with
  | some (first :: lines) =>
    match first.splitOn ' ' with
    | method :: target :: _ =>
      if method ≠ "GET".toList ∧ method ≠ "HEAD".toList then none
      else if !(utf8 (pathOf target)).all isAsciiGraphic then none
      else
        match (lines.takeWhile (· ≠ [])).findSome? hostHeader with
        | some host =>
          if host = [] ∨ !(utf8 host).all isAsciiGraphic then none
          else some (pathOf target, host)
        | none => none
    | _ => none
  | _ => none

/-- A header value of graphic characters reads back as it was made. -/
def redirectTarget (head : List UInt8) (admin : AdminConfig) : Option Str :=
  match request head with
  | some (path, host) =>
    if hostAllowed (some host) admin then some ("https://".toList ++ host ++ path) else none
  | none => none

def isDelimiter (c : Char) : Bool := c == '/' || c == '?' || c == '#'

/-- The text between the scheme and the path. -/
def authority (url : Str) : Str := (url.drop 8).takeWhile (!isDelimiter ·)

/-- The user information ends at the last at sign. -/
def withoutUserInfo (authority : Str) : Str := authority.rtakeWhile (· ≠ '@')

inductive UrlHost
  | bracketed (inside : Str)
  | name (name : Str)
  deriving DecidableEq

/-- Nothing, or a colon and decimal digits. -/
def isPort : Str → Bool
  | [] => true
  | c :: digits => c == ':' && digits.all Char.isDigit

/-- A host and an optional port, and nothing else. -/
def readHost (s : Str) : Option UrlHost :=
  match s with
  | '[' :: rest =>
    match splitFirst [']'] rest with
    | some (inside, port) => if isPort port then some (.bracketed inside) else none
    | none => none
  | _ =>
    if isPort (s.dropWhile (· ≠ ':')) then some (.name (s.takeWhile (· ≠ ':'))) else none

/-- An address, `localhost` or a name of the settings; case and dots at the end do not count. -/
def PanelName (admin : AdminConfig) (name : Str) : Prop :=
  let name := toAsciiLowercase (trimEndDots name)
  (parseIpAddr name).isSome = true ∨ name = "localhost".toList ∨
    ∃ n ∈ admin.tlsNames, toAsciiLowercase (trimEndDots (trim n)) = name

/-- An IPv6 address stands in brackets, and nothing else does. -/
def PanelHost (admin : AdminConfig) : UrlHost → Prop
  | .bracketed inside => (parseIpv6Addr inside).isSome = true
  | .name name => PanelName admin name

/-- The whole text is a host of the panel with an optional port. -/
def IsPanel (admin : AdminConfig) (s : Str) : Prop :=
  ∃ host, readHost s = some host ∧ PanelHost admin host

def isControl (c : Char) : Bool := c.toNat < 32 || 127 ≤ c.toNat && c.toNat < 160

/-- Where a reader of the URL ends up. -/
def OnPanel (admin : AdminConfig) (url : Str) : Prop :=
  (∀ c ∈ url, isControl c = false ∧ c ≠ ' ') ∧ IsPanel admin (withoutUserInfo (authority url))

/-- What stands after the name and is not looked at. -/
def cutOff (host : Str) : Str :=
  match host with
  | '[' :: rest => (splitFirst [']'] rest).elim [] Prod.snd
  | _ => (splitLast ':' host).elim [] fun x => ':' :: x.2

/-- What was cut off is a port, and brackets stand around an IPv6 address and nothing else. -/
def Plain (host name rest : Str) : Prop :=
  isPort rest = true ∧
    if host.head? = some '[' then (parseIpv6Addr name).isSome = true else ':' ∉ name

instance instDecidablePlain (host name rest : Str) : Decidable (Plain host name rest) :=
  inferInstanceAs (Decidable (_ ∧ _))

/-- What a reader of the URL sees of the part that was cut off: a port, or a panel's host of its
own behind an at sign. -/
def Harmless (admin : AdminConfig) (host name : Str) : Prop :=
  let rest := (cutOff host).takeWhile (!isDelimiter ·)
  if '@' ∈ rest then IsPanel admin (withoutUserInfo rest) else Plain host name rest

section Names

/-- The characters of names and addresses. -/
def isPlainChar (c : Char) : Bool := c.isAlphanum || c == '-' || c == ':' || c == '.'

theorem toAsciiLowercase_idem (s : Str) :
    toAsciiLowercase (toAsciiLowercase s) = toAsciiLowercase s := by
  simp [toAsciiLowercase]

theorem isPlainChar_toLower (c : Char) : isPlainChar c.toLower = isPlainChar c := by
  by_cases hup : c.isUpper = true
  · have hlow : c.toLower.isAlphanum = true := by simp [Char.isAlphanum, Char.isAlpha, hup]
    rw [isPlainChar, isPlainChar, hlow, Char.isAlphanum, Char.isAlpha, hup]
    simp
  · rw [Char.toLower_eq_of_not_isUpper hup]

theorem isPlainChar_of_addressChar {c : Char} (h : AddressChar c) : isPlainChar c = true := by
  obtain hhex | rfl | rfl := h
  · rw [isHexDigit] at hhex
    have halnum : c.isAlphanum = true := by
      simp only [Bool.or_eq_true, Bool.and_eq_true, decide_eq_true_eq] at hhex
      simp only [Char.isAlphanum, Char.isAlpha, Char.isUpper, Char.isLower, Bool.or_eq_true,
        Bool.and_eq_true, decide_eq_true_eq]
      obtain (hdigit | ⟨hlo, hhi⟩) | ⟨hlo, hhi⟩ := hhex
      · exact Or.inr hdigit
      · exact Or.inl (Or.inr ⟨hlo, UInt32.le_trans hhi (by decide)⟩)
      · exact Or.inl (Or.inl ⟨hlo, UInt32.le_trans hhi (by decide)⟩)
    rw [isPlainChar, halnum]
    rfl
  · rfl
  · rfl

variable {admin : AdminConfig} {name : Str}

theorem nameAllowed_iff : nameAllowed admin name = true ↔ PanelName admin name := by
  simp only [nameAllowed, PanelName, Bool.or_eq_true, beq_iff_eq, List.any_eq_true,
    toAsciiLowercase_idem, or_assoc]

theorem plain_of_lower {s : Str} (h : ∀ c ∈ toAsciiLowercase s, isPlainChar c = true) :
    ∀ c ∈ s, isPlainChar c = true := by
  intro c hc
  rw [← isPlainChar_toLower]
  exact h _ (List.mem_map_of_mem hc)

theorem plain_of_trimEndDots {s : Str} (h : ∀ c ∈ trimEndDots s, isPlainChar c = true) :
    ∀ c ∈ s, isPlainChar c = true := by
  intro c hc
  have hs : trimEndDots s ++ s.rtakeWhile (· = '.') = s := List.rdropWhile_append_rtakeWhile
  rw [← hs] at hc
  obtain hc | hc := List.mem_append.mp hc
  · exact h c hc
  · obtain rfl : c = '.' := by simpa using List.mem_rtakeWhile_imp hc
    rfl

/-- A name of the panel holds no delimiter. -/
theorem PanelName.plain (hvalid : admin.validate = .ok ()) (hon : admin.enabled = true)
    (h : PanelName admin name) : ∀ c ∈ name, isPlainChar c = true := by
  refine plain_of_trimEndDots (plain_of_lower ?_)
  obtain hip | hlocal | ⟨n, hn, heq⟩ := h
  · exact fun c hc => isPlainChar_of_addressChar (addressChar_of_parse hip c hc)
  · have hall : "localhost".toList.all isPlainChar = true := by decide
    rw [hlocal]
    exact List.all_eq_true.mp hall
  · rw [← heq]
    have hplain : ∀ c ∈ trim n, isPlainChar c = true := by
      intro c hc
      obtain hip | hdns := AdminConfig.names_of_validate hvalid hon n hn
      · exact isPlainChar_of_addressChar (addressChar_of_parse hip c hc)
      · obtain hlabel | rfl := AdminConfig.labelChar_of_dnsOk hdns c hc
        · rw [AdminConfig.isLabelChar] at hlabel
          rw [isPlainChar, hlabel]
          rfl
        · rfl
    intro c hc
    obtain ⟨d, hd, rfl⟩ := List.mem_map.mp hc
    rw [isPlainChar_toLower]
    exact hplain d ((List.rdropWhile_prefix _ _).subset hd)

end Names

section Reading

variable {admin : AdminConfig} {host name rest : Str}

/-- The header up to the end of the name. -/
def front (host name : Str) : Str :=
  if host.head? = some '[' then '[' :: (name ++ [']']) else name

theorem ne_cons_of_head (h : host.head? ≠ some '[') (rest : Str) : host ≠ '[' :: rest := by
  rintro rfl
  exact h rfl

theorem readHost_of_head (h : host.head? ≠ some '[') :
    readHost host = if isPort (host.dropWhile (· ≠ ':')) then
      some (.name (host.takeWhile (· ≠ ':'))) else none :=
  readHost.eq_2 host (ne_cons_of_head h)

theorem hostName_bracket (h : hostName ('[' :: rest) = some name) :
    rest = name ++ ']' :: cutOff ('[' :: rest) ∧ ']' ∉ name := by
  obtain ⟨x, hx, rfl⟩ := Option.map_eq_some_iff.mp h
  have hcut : cutOff ('[' :: rest) = x.2 := by simp [cutOff, hx]
  rw [hcut]
  exact splitFirst_one.mp hx

/-- What is cut off begins with the last colon. -/
theorem hostName_plain (hhead : host.head? ≠ some '[') (h : hostName host = some name) :
    host = name ++ cutOff host ∧
      (cutOff host = [] ∧ ':' ∉ name ∨ ∃ port, cutOff host = ':' :: port) := by
  rw [hostName.eq_2 host (ne_cons_of_head hhead)] at h
  rw [cutOff.eq_2 host (ne_cons_of_head hhead)]
  cases hs : splitLast ':' host with
  | none =>
    rw [hs] at h
    obtain rfl := Option.some.inj h
    exact ⟨(List.append_nil _).symm, Or.inl ⟨rfl, splitLast_none hs⟩⟩
  | some x =>
    rw [hs] at h
    obtain rfl := Option.some.inj h
    exact ⟨(splitLast_some hs).1, Or.inr ⟨x.2, rfl⟩⟩

theorem eq_front (h : hostName host = some name) : host = front host name ++ cutOff host := by
  by_cases hhead : host.head? = some '['
  · obtain ⟨rest, rfl⟩ := List.head?_eq_some_iff.mp hhead
    rw [front, if_pos hhead, List.cons_append, List.append_assoc]
    exact congrArg _ (hostName_bracket h).1
  · rw [front, if_neg hhead]
    exact (hostName_plain hhead h).1

theorem all_ne {c : Char} {s : Str} (h : c ∉ s) : ∀ d ∈ s, decide (d ≠ c) = true := by
  intro d hd
  rw [decide_eq_true_eq]
  rintro rfl
  exact h hd

/-- A second colon is no part of a port. -/
theorem isPort_of_colon {before after : Str} :
    isPort (':' :: (before ++ ':' :: after)) = false := by
  rw [isPort, List.all_append, List.all_cons]
  simp

theorem isPanel_bracket (hname : ']' ∉ name) :
    IsPanel admin ('[' :: (name ++ ']' :: rest)) ↔
      isPort rest = true ∧ (parseIpv6Addr name).isSome = true := by
  have hread : readHost ('[' :: (name ++ ']' :: rest)) =
      if isPort rest then some (.bracketed name) else none := by
    simp only [readHost, splitFirst_one.mpr ⟨rfl, hname⟩]
  rw [IsPanel, hread]
  by_cases hport : isPort rest = true
  · simp [hport, PanelHost]
  · simp [hport]

theorem isPanel_name (hhead : (name ++ rest).head? ≠ some '[') (hpanel : PanelName admin name)
    (hrest : rest = [] ∧ ':' ∉ name ∨ ∃ port, rest = ':' :: port) :
    IsPanel admin (name ++ rest) ↔ isPort rest = true ∧ ':' ∉ name := by
  rw [IsPanel, readHost_of_head hhead]
  by_cases hcolon : ':' ∈ name
  · obtain ⟨before, after, rfl, hbefore⟩ := List.eq_append_cons_of_mem hcolon
    obtain ⟨port, rfl⟩ := hrest.resolve_left fun h => h.2 hcolon
    have hdrop : (before ++ ':' :: after ++ ':' :: port).dropWhile (· ≠ ':') =
        ':' :: (after ++ ':' :: port) := by
      rw [List.append_assoc, List.dropWhile_append_of_pos (all_ne hbefore)]
      simp
    rw [hdrop, isPort_of_colon]
    simp
  · have hdrop : rest.dropWhile (· ≠ ':') = rest ∧ rest.takeWhile (· ≠ ':') = [] := by
      obtain ⟨rfl, -⟩ | ⟨port, rfl⟩ := hrest
      · exact ⟨rfl, rfl⟩
      · simp
    rw [List.dropWhile_append_of_pos (all_ne hcolon), List.takeWhile_append_of_pos (all_ne hcolon),
      hdrop.1, hdrop.2, List.append_nil]
    by_cases hport : isPort rest = true
    · simp [hport, PanelHost, hpanel, hcolon]
    · simp [hport]

theorem isPanel_front {q : Char → Bool} (hq : q ':' = true) (hname : hostName host = some name)
    (hpanel : PanelName admin name) :
    IsPanel admin (front host name ++ (cutOff host).takeWhile q) ↔
      Plain host name ((cutOff host).takeWhile q) := by
  by_cases hhead : host.head? = some '['
  · obtain ⟨rest, rfl⟩ := List.head?_eq_some_iff.mp hhead
    rw [front, Plain, if_pos hhead, if_pos hhead, List.cons_append, List.append_assoc]
    exact isPanel_bracket (hostName_bracket hname).2
  · obtain ⟨heq, hcut⟩ := hostName_plain hhead hname
    rw [front, Plain, if_neg hhead, if_neg hhead]
    refine isPanel_name ?_ hpanel ?_
    · intro h
      obtain ⟨t, ht⟩ := List.takeWhile_prefix (l := cutOff host) q
      refine hhead ?_
      rw [heq, ← ht, ← List.append_assoc, List.head?_append, h]
      rfl
    · obtain ⟨hnil, hcolon⟩ | ⟨port, hport⟩ := hcut
      · exact Or.inl ⟨by rw [hnil]; rfl, hcolon⟩
      · exact Or.inr ⟨port.takeWhile q, by rw [hport, List.takeWhile_cons_of_pos hq]⟩

theorem isPanel_host (hname : hostName host = some name) (hpanel : PanelName admin name) :
    IsPanel admin host ↔ Plain host name (cutOff host) := by
  have hfront := isPanel_front (q := fun _ => true) rfl hname hpanel
  have hall : (cutOff host).takeWhile (fun _ => true) = cutOff host := by simp
  rwa [hall, ← eq_front hname] at hfront

theorem hostAllowed_iff {header : Str} : hostAllowed (some header) admin = true ↔
    ∃ name, hostName (trim header) = some name ∧ PanelName admin name := by
  rw [hostAllowed]
  cases hostName (trim header) with
  | none => simp
  | some name => simp [nameAllowed_iff]

end Reading

section Urls

variable {admin : AdminConfig} {host name path before rest : Str}

theorem not_delimiter {c : Char} (h : isPlainChar c = true) : isDelimiter c = false ∧ c ≠ '@' := by
  constructor
  · simp only [isDelimiter, Bool.or_eq_false_iff, beq_eq_false_iff_ne]
    refine ⟨⟨?_, ?_⟩, ?_⟩ <;> rintro rfl <;> exact absurd h (by decide)
  · rintro rfl
    exact absurd h (by decide)

theorem front_free (h : ∀ c ∈ name, isPlainChar c = true) :
    ∀ c ∈ front host name, isDelimiter c = false ∧ c ≠ '@' := by
  have hname : ∀ c ∈ name, isDelimiter c = false ∧ c ≠ '@' := fun c hc => not_delimiter (h c hc)
  intro c hc
  rw [front] at hc
  split_ifs at hc
  · rw [List.mem_cons, List.mem_append, List.mem_singleton] at hc
    obtain rfl | hc | rfl := hc
    · decide
    · exact hname c hc
    · decide
  · exact hname c hc

theorem authority_eq (hbefore : ∀ c ∈ before, isDelimiter c = false) (t : Str) :
    authority ("https://".toList ++ (before ++ rest) ++ '/' :: t) =
      before ++ rest.takeWhile (!isDelimiter ·) := by
  have hdrop : ("https://".toList ++ (before ++ rest) ++ '/' :: t).drop 8 =
      before ++ (rest ++ '/' :: t) := by
    rw [List.append_assoc, List.append_assoc]
    rfl
  have hstop : (rest ++ '/' :: t).takeWhile (!isDelimiter ·) = rest.takeWhile (!isDelimiter ·) := by
    rw [List.takeWhile_append]
    split
    · rename_i hlen
      have hall := List.IsPrefix.eq_of_length (List.takeWhile_prefix (l := rest) _) hlen
      rw [hall]
      exact List.append_nil _
    · rfl
  have hpos : ∀ c ∈ before, (!isDelimiter c) = true := by
    intro c hc
    rw [hbefore c hc]
    rfl
  rw [authority, hdrop, List.takeWhile_append_of_pos hpos, hstop]

theorem withoutUserInfo_at (hrest : '@' ∉ rest) (before : Str) :
    withoutUserInfo (before ++ '@' :: rest) = rest := by
  have hall : ∀ c ∈ rest.reverse, decide (c ≠ '@') = true :=
    fun c hc => all_ne hrest c (List.mem_reverse.mp hc)
  rw [withoutUserInfo, List.rtakeWhile, List.reverse_append, List.reverse_cons, List.append_assoc,
    List.takeWhile_append_of_pos hall]
  simp

theorem withoutUserInfo_append (hbefore : '@' ∉ before) :
    withoutUserInfo (before ++ rest) =
      if '@' ∈ rest then withoutUserInfo rest else before ++ rest := by
  by_cases hrest : '@' ∈ rest
  · obtain ⟨x, hx⟩ : ∃ x, splitLast '@' rest = some x := ⟨_, if_pos hrest⟩
    obtain ⟨heq, hfree⟩ := splitLast_some hx
    rw [if_pos hrest, heq, ← List.append_assoc, withoutUserInfo_at hfree, withoutUserInfo_at hfree]
  · rw [if_neg hrest, withoutUserInfo, List.rtakeWhile_eq_self_iff]
    refine all_ne fun hmem => ?_
    exact (List.mem_append.mp hmem).elim hbefore hrest

/-- The reading of the URL and the check of the header part where something is cut off. -/
theorem onPanel_iff (hplain : ∀ c ∈ name, isPlainChar c = true) (hname : hostName host = some name)
    (hpanel : PanelName admin name) (t : Str) :
    IsPanel admin (withoutUserInfo (authority ("https://".toList ++ host ++ '/' :: t))) ↔
      Harmless admin host name := by
  have hfree : ∀ c ∈ front host name, isDelimiter c = false ∧ c ≠ '@' := front_free hplain
  have hurl : authority ("https://".toList ++ host ++ '/' :: t) =
      front host name ++ (cutOff host).takeWhile (!isDelimiter ·) := by
    have h : authority ("https://".toList ++ (front host name ++ cutOff host) ++ '/' :: t) =
        front host name ++ (cutOff host).takeWhile (!isDelimiter ·) :=
      authority_eq (fun c hc => (hfree c hc).1) t
    rwa [← eq_front hname] at h
  rw [hurl, withoutUserInfo_append fun hmem => (hfree _ hmem).2 rfl, Harmless]
  split
  · rfl
  · exact isPanel_front rfl hname hpanel

end Urls

section Requests

variable {admin : AdminConfig} {head : List UInt8} {path host : Str}

/-- Neither a control character nor white space. -/
def Graphic (s : Str) : Prop := ∀ c ∈ s, 33 ≤ c.toNat ∧ c.toNat ≤ 126

theorem graphic_of_utf8 {s : Str} (h : (utf8 s).all isAsciiGraphic = true) : Graphic s := by
  have hwide : ∀ b : UInt8, 128 ≤ b.toNat → isAsciiGraphic b = false := by
    intro b hb
    rw [isAsciiGraphic, Bool.and_eq_false_iff, decide_eq_false_iff_not, decide_eq_false_iff_not]
    omega
  intro c hc
  obtain ⟨hascii, hgraphic⟩ := (utf8_all_iff hwide).mp h c hc
  simp only [isAsciiGraphic, UInt8.toNat_ofNat', Bool.and_eq_true, decide_eq_true_eq] at hgraphic
  rwa [Nat.mod_eq_of_lt (by omega)] at hgraphic

theorem Graphic.trim_eq {s : Str} (h : Graphic s) : trim s = s := by
  refine trim_of_visible fun c hc => ?_
  obtain ⟨hlo, hhi⟩ := h c hc
  have hfew : c.toNat ∉ [0x20, 0x85, 0xA0, 0x1680, 0x2028, 0x2029, 0x202F, 0x205F, 0x3000] := by
    intro hmem
    simp only [List.mem_cons, List.not_mem_nil, or_false] at hmem
    omega
  simp only [isWhitespace, hfew, Bool.or_eq_false_iff, Bool.and_eq_false_iff,
    decide_eq_false_iff_not, not_false_eq_true, and_true]
  omega

theorem Graphic.visible {s : Str} (h : Graphic s) : ∀ c ∈ s, isControl c = false ∧ c ≠ ' ' := by
  intro c hc
  obtain ⟨hlo, hhi⟩ := h c hc
  constructor
  · simp only [isControl, Bool.or_eq_false_iff, Bool.and_eq_false_iff, decide_eq_false_iff_not]
    omega
  · rintro rfl
    exact absurd hlo (by decide)

theorem pathOf_slash (target : Str) : ∃ t, pathOf target = '/' :: t := by
  rw [pathOf]
  split_ifs with h
  · exact List.head?_eq_some_iff.mp h.1
  · exact ⟨[], rfl⟩

theorem request_spec (h : request head = some (path, host)) :
    (∃ t, path = '/' :: t) ∧ Graphic path ∧ Graphic host := by
  rw [request] at h
  split at h
  · split at h
    · split_ifs at h with hmethod hpath
      split at h
      · split_ifs at h with hhost
        obtain ⟨rfl, rfl⟩ := Prod.mk.inj (Option.some.inj h)
        rw [not_or] at hhost
        exact ⟨pathOf_slash _, graphic_of_utf8 (by simpa using hpath),
          graphic_of_utf8 (by simpa using hhost.2)⟩
      · cases h
    · cases h
  · cases h

theorem redirectTarget_iff {u : Str} : redirectTarget head admin = some u ↔
    ∃ path host, request head = some (path, host) ∧ hostAllowed (some host) admin = true ∧
      u = "https://".toList ++ host ++ path := by
  constructor
  · intro h
    rw [redirectTarget] at h
    split at h
    · rename_i path host hreq
      split_ifs at h with hallowed
      exact ⟨path, host, hreq, hallowed, (Option.some.inj h).symm⟩
    · cases h
  · rintro ⟨path, host, hreq, hallowed, rfl⟩
    simp only [redirectTarget, hreq, hallowed, if_true]

variable (hvalid : admin.validate = .ok ()) (hon : admin.enabled = true)

include hvalid hon

/-- The redirect stays on the panel and the check accepts whole hosts exactly where what is cut
off behind a panel's name is harmless. -/
theorem stays_on_panel_iff :
    (∀ head, (∀ u, redirectTarget head admin = some u → OnPanel admin u) ↔
      ∀ path host name, request head = some (path, host) → hostName host = some name →
        PanelName admin name → Harmless admin host name) ∧
    ∀ header, (hostAllowed (some header) admin = true → IsPanel admin (trim header)) ↔
      ∀ name, hostName (trim header) = some name → PanelName admin name →
        Plain (trim header) name (cutOff (trim header)) := by
  refine ⟨fun head => ⟨fun h path host name hreq hname hpanel => ?_, fun h u hu => ?_⟩,
    fun header => ⟨fun h name hname hpanel => ?_, fun h hallowed => ?_⟩⟩
  · obtain ⟨⟨t, rfl⟩, -, hhost⟩ := request_spec hreq
    have hallowed : hostAllowed (some host) admin = true :=
      hostAllowed_iff.mpr ⟨name, by rwa [hhost.trim_eq], hpanel⟩
    have hurl := (h _ (redirectTarget_iff.mpr ⟨_, host, hreq, hallowed, rfl⟩)).2
    exact (onPanel_iff (hpanel.plain hvalid hon) hname hpanel t).mp hurl
  · obtain ⟨path, host, hreq, hallowed, rfl⟩ := redirectTarget_iff.mp hu
    obtain ⟨⟨t, rfl⟩, hpath, hhost⟩ := request_spec hreq
    obtain ⟨name, hname, hpanel⟩ := hostAllowed_iff.mp hallowed
    rw [hhost.trim_eq] at hname
    refine ⟨fun c hc => ?_, ?_⟩
    · rw [List.mem_append, List.mem_append] at hc
      obtain (hc | hc) | hc := hc
      · have hall : "https://".toList.all (fun c => !isControl c && c != ' ') = true := by decide
        simpa using List.all_eq_true.mp hall c hc
      · exact hhost.visible c hc
      · exact hpath.visible c hc
    · exact (onPanel_iff (hpanel.plain hvalid hon) hname hpanel t).mpr
        (h _ host name hreq hname hpanel)
  · have hwhole := h (hostAllowed_iff.mpr ⟨name, hname, hpanel⟩)
    exact (isPanel_host hname hpanel).mp hwhole
  · obtain ⟨name, hname, hpanel⟩ := hostAllowed_iff.mp hallowed
    exact (isPanel_host hname hpanel).mpr (h name hname hpanel)

end Requests

/-- A panel for this machine, without a password. -/
def localPanel : AdminConfig where
  enabled := true
  port := 8080
  bind := "127.0.0.1".toList
  passwordHash := []
  tls := "self-signed".toList
  tlsCert := []
  tlsKey := []
  tlsCaCert := []
  tlsCaKey := []
  tlsNames := []

theorem localPanel_validate : localPanel.validate = .ok () := by decide

theorem fromUtf8_utf8 (s : Str) : fromUtf8 (utf8 s) = some s := by
  rw [fromUtf8, Text.Utf8.fromUtf8Lossy_utf8, if_pos rfl]

def requestOf (host : Str) : Str :=
  "GET / HTTP/1.1\r\nHost: ".toList ++ host ++ "\r\n\r\n".toList

theorem request_ipv6 : request (utf8 (requestOf "[2001:db8::1]:8080".toList)) =
    some ("/".toList, "[2001:db8::1]:8080".toList) := by
  rw [request, fromUtf8_utf8]
  decide +kernel

theorem ipv6_stays : (∀ u, redirectTarget (utf8 (requestOf "[2001:db8::1]:8080".toList)) localPanel
      = some u → OnPanel localPanel u) ∧
    (hostAllowed (some "localhost:8080".toList) localPanel = true →
      IsPanel localPanel (trim "localhost:8080".toList)) := by
  refine ⟨((stays_on_panel_iff localPanel_validate rfl).1 _).mpr ?_,
    ((stays_on_panel_iff localPanel_validate rfl).2 _).mpr ?_⟩
  · intro path host name hreq hname _
    rw [request_ipv6] at hreq
    obtain ⟨rfl, rfl⟩ := Prod.mk.inj (Option.some.inj hreq)
    obtain rfl : "2001:db8::1".toList = name := Option.some.inj hname
    have hat : '@' ∉ (cutOff "[2001:db8::1]:8080".toList).takeWhile (!isDelimiter ·) := by decide
    rw [Harmless, if_neg hat]
    decide
  · intro name hname _
    obtain rfl : "localhost".toList = name := Option.some.inj hname
    decide +kernel

def strayHost : Str := "[::1]@evil.example".toList

theorem not_panel_evil : ¬ IsPanel localPanel "evil.example".toList := by
  rintro ⟨host, hread, hpanel⟩
  obtain rfl : UrlHost.name "evil.example".toList = host := Option.some.inj hread
  obtain hip | hlocal | ⟨n, hn, -⟩ := hpanel
  · exact absurd hip (by decide)
  · exact absurd hlocal (by decide)
  · exact absurd hn List.not_mem_nil

/-- Behind the bracket an at sign makes another host. -/
theorem stray_redirect : localPanel.validate = .ok () ∧
    redirectTarget (utf8 (requestOf strayHost)) localPanel =
      some ("https://".toList ++ strayHost ++ "/".toList) ∧
    ¬ OnPanel localPanel ("https://".toList ++ strayHost ++ "/".toList) ∧
    hostAllowed (some strayHost) localPanel = true ∧ ¬ IsPanel localPanel strayHost := by
  refine ⟨localPanel_validate, ?_, ?_, ?_, ?_⟩
  · have hreq : request (utf8 (requestOf strayHost)) = some ("/".toList, strayHost) := by
      rw [request, fromUtf8_utf8]
      decide +kernel
    rw [redirectTarget, hreq]
    decide +kernel
  · rintro ⟨-, hpanel⟩
    exact not_panel_evil hpanel
  · decide +kernel
  · rintro ⟨host, hread, -⟩
    have hnone : readHost strayHost = none := by decide
    rw [hnone] at hread
    cases hread

end Ed2kServer.Admin.HostCheck
