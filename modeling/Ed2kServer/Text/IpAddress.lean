import Ed2kServer.Sources.Address
import Ed2kServer.Text.Lines

namespace Ed2kServer.Text.IpAddress

open Ed2kServer.Sources.Address Ed2kServer.Text.Lines

/-- `char::to_digit`. -/
def toDigit (radix : Nat) (c : Char) : Option Nat :=
  let value :=
    if c.isDigit then some (c.toNat - '0'.toNat)
    else if 'a' ≤ c ∧ c ≤ 'f' then some (c.toNat - 'a'.toNat + 10)
    else if 'A' ≤ c ∧ c ≤ 'F' then some (c.toNat - 'A'.toNat + 10)
    else none
  value.filter (· < radix)

/-- A number of at most `width` digits at the front of the text. -/
def readNumber (radix width max : Nat) (zeroPrefix : Bool) (s : Str) : Option (Nat × Str) :=
  let digits := s.takeWhile fun c => (toDigit radix c).isSome
  let n := digits.foldl (fun n c => n * radix + (toDigit radix c).getD 0) 0
  if digits = [] ∨ width < digits.length then none
  else if !zeroPrefix ∧ digits.head? = some '0' ∧ 1 < digits.length then none
  else if max < n then none
  else some (n, s.dropWhile fun c => (toDigit radix c).isSome)

variable {α : Type}

/-- The separator stands before every piece but the first. -/
def readSeparator (sep : Char) (first : Bool) (read : Str → Option (α × Str)) (s : Str) :
    Option (α × Str) :=
  if first then read s
  else
    match s with
    | [] => none
    | c :: rest => if c = sep then read rest else none

def readOctets : Nat → Bool → Str → Option (List Nat × Str)
  | 0, _, s => some ([], s)
  | n + 1, first, s =>
    (readSeparator '.' first (readNumber 10 3 255 false) s).bind fun x =>
      (readOctets n false x.2).map fun y => (x.1 :: y.1, y.2)

def readIpv4Addr (s : Str) : Option (List Nat × Str) := readOctets 4 true s

/-- Groups of an IPv6 address until there are `n` or the next one does not fit, and whether the
last two were written as an IPv4 address. -/
def readGroups : Nat → Bool → Str → List Nat × Bool × Str
  | 0, _, s => ([], false, s)
  | n + 1, first, s =>
    match if n = 0 then none else readSeparator ':' first readIpv4Addr s with
    | some (o, rest) =>
      ([o.getD 0 0 * 256 + o.getD 1 0, o.getD 2 0 * 256 + o.getD 3 0], true, rest)
    | none =>
      match readSeparator ':' first (readNumber 16 4 0xFFFF true) s with
      | some (group, rest) =>
        let next := readGroups n false rest
        (group :: next.1, next.2)
      | none => ([], false, s)

def readIpv6Addr (s : Str) : Option (List Nat × Str) :=
  let head := readGroups 8 true s
  if head.1.length = 8 then some (head.1, head.2.2)
  else if head.2.1 then none
  else
    match head.2.2 with
    | ':' :: ':' :: rest =>
      let tail := readGroups (7 - head.1.length) true rest
      some (head.1 ++ List.replicate (8 - head.1.length - tail.1.length) 0 ++ tail.1, tail.2.2)
    | _ => none

def ofOctets (octets : List Nat) : Ipv4 :=
  UInt32.ofNat (octets.foldr (fun octet n => octet + 256 * n) 0)

def ofGroups (groups : List Nat) : Ipv6 :=
  Vector.ofFn fun i => UInt8.ofNat (groups.getD (i.val / 2) 0 / 256 ^ (1 - i.val % 2))

def readIpAddr (s : Str) : Option (IpAddr × Str) :=
  match readIpv4Addr s with
  | some (octets, rest) => some (.v4 (ofOctets octets), rest)
  | none => (readIpv6Addr s).map fun x => (.v6 (ofGroups x.1), x.2)

/-- The text is read to its end. -/
def parseWith (read : Str → Option (α × Str)) (s : Str) : Option α :=
  match read s with
  | some (a, []) => some a
  | _ => none

/-- `str::parse` of an `IpAddr`. -/
def parseIpAddr (s : Str) : Option IpAddr := parseWith readIpAddr s

/-- `str::parse` of an `Ipv4Addr`. -/
def parseIpv4Addr (s : Str) : Option Ipv4 := parseWith (fun s => (readIpv4Addr s).map fun x =>
  (ofOctets x.1, x.2)) s

/-- `str::parse` of an `Ipv6Addr`. -/
def parseIpv6Addr (s : Str) : Option Ipv6 := parseWith (fun s => (readIpv6Addr s).map fun x =>
  (ofGroups x.1, x.2)) s

example : parseIpAddr "192.168.1.20".toList = some (.v4 0x1401A8C0) := by decide

example : parseIpAddr "2001:db8::1:ff".toList =
    some (.v6 #v[0x20, 0x01, 0x0D, 0xB8, 0, 0, 0, 0, 0, 0, 0, 0, 0, 1, 0, 0xFF]) := by decide

/-- The characters an address is written with. -/
def AddressChar (c : Char) : Prop := isHexDigit c = true ∨ c = ':' ∨ c = '.'

/-- What was read stood at the front of the text and consists of such characters. -/
def Taken (s rest : Str) : Prop := ∃ front, s = front ++ rest ∧ ∀ c ∈ front, AddressChar c

variable {s rest : Str} {a : α}

theorem Taken.refl (s : Str) : Taken s s := ⟨[], rfl, fun _ h => absurd h List.not_mem_nil⟩

theorem Taken.trans {t : Str} (h : Taken s t) (ht : Taken t rest) : Taken s rest := by
  obtain ⟨front, rfl, hfront⟩ := h
  obtain ⟨back, rfl, hback⟩ := ht
  refine ⟨front ++ back, (List.append_assoc _ _ _).symm, fun c hc => ?_⟩
  exact (List.mem_append.mp hc).elim (hfront c) (hback c)

theorem Taken.cons {c : Char} (hc : AddressChar c) (s : Str) : Taken (c :: s) s :=
  ⟨[c], rfl, fun d hd => by rw [List.mem_singleton.mp hd]; exact hc⟩

theorem isHexDigit_of_toDigit {radix : Nat} {c : Char} (h : (toDigit radix c).isSome = true) :
    isHexDigit c = true := by
  obtain ⟨n, hn⟩ := Option.isSome_iff_exists.mp h
  rw [toDigit, Option.filter_eq_some_iff] at hn
  obtain ⟨hn, -⟩ := hn
  rw [isHexDigit]
  split_ifs at hn with hdigit hlow hhigh
  · rw [hdigit]
    rfl
  · simp [hlow]
  · simp [hhigh]

theorem readNumber_taken {radix width max n : Nat} {zeroPrefix : Bool}
    (h : readNumber radix width max zeroPrefix s = some (n, rest)) : Taken s rest := by
  rw [readNumber] at h
  split_ifs at h
  obtain ⟨-, rfl⟩ := Prod.mk.inj (Option.some.inj h)
  refine ⟨_, (List.takeWhile_append_dropWhile).symm, fun c hc => Or.inl ?_⟩
  have hdigit := List.mem_takeWhile_imp hc
  exact isHexDigit_of_toDigit hdigit

theorem readSeparator_taken {sep : Char} {first : Bool} {read : Str → Option (α × Str)}
    (hsep : AddressChar sep) (hread : ∀ s a rest, read s = some (a, rest) → Taken s rest)
    (h : readSeparator sep first read s = some (a, rest)) : Taken s rest := by
  cases first with
  | true => exact hread _ _ _ h
  | false =>
    cases s with
    | nil => exact absurd h (by simp [readSeparator])
    | cons c s =>
      rw [readSeparator, if_neg Bool.false_ne_true] at h
      split_ifs at h with hc
      subst hc
      exact (Taken.cons hsep s).trans (hread _ _ _ h)

theorem readOctets_taken {n : Nat} {first : Bool} {octets : List Nat}
    (h : readOctets n first s = some (octets, rest)) : Taken s rest := by
  induction n generalizing first s octets with
  | zero =>
    obtain ⟨-, rfl⟩ := Prod.mk.inj (Option.some.inj h)
    exact Taken.refl s
  | succ n ih =>
    obtain ⟨x, hx, h⟩ := Option.bind_eq_some_iff.mp h
    obtain ⟨y, hy, h⟩ := Option.map_eq_some_iff.mp h
    obtain ⟨-, rfl⟩ := Prod.mk.inj h
    have hone : Taken s x.2 :=
      readSeparator_taken (Or.inr (Or.inr rfl)) (fun _ _ _ => readNumber_taken) hx
    exact hone.trans (ih hy)

theorem readGroups_taken {n : Nat} {first : Bool} : Taken s (readGroups n first s).2.2 := by
  induction n generalizing first s with
  | zero => exact Taken.refl s
  | succ n ih =>
    rw [readGroups]
    have hcolon : AddressChar ':' := Or.inr (Or.inl rfl)
    split
    · rename_i octets t hv4
      split_ifs at hv4
      exact readSeparator_taken hcolon (fun _ _ _ => readOctets_taken) hv4
    · split
      · rename_i group t hgroup
        have hone : Taken s t := readSeparator_taken hcolon (fun _ _ _ => readNumber_taken) hgroup
        exact hone.trans ih
      · exact Taken.refl s

theorem readIpv6Addr_taken {groups : List Nat} (h : readIpv6Addr s = some (groups, rest)) :
    Taken s rest := by
  have hhead : Taken s (readGroups 8 true s).2.2 := readGroups_taken
  have hcolon : AddressChar ':' := Or.inr (Or.inl rfl)
  rw [readIpv6Addr] at h
  split_ifs at h
  · obtain ⟨-, rfl⟩ := Prod.mk.inj (Option.some.inj h)
    exact hhead
  · split at h
    · rename_i t ht
      obtain ⟨-, rfl⟩ := Prod.mk.inj (Option.some.inj h)
      rw [ht] at hhead
      exact hhead.trans ((Taken.cons hcolon _).trans ((Taken.cons hcolon t).trans readGroups_taken))
    · cases h

theorem readIpAddr_taken {ip : IpAddr} (h : readIpAddr s = some (ip, rest)) : Taken s rest := by
  rw [readIpAddr] at h
  split at h
  · rename_i octets t hv4
    obtain ⟨-, rfl⟩ := Prod.mk.inj (Option.some.inj h)
    exact readOctets_taken hv4
  · obtain ⟨x, hx, h⟩ := Option.map_eq_some_iff.mp h
    obtain ⟨-, rfl⟩ := Prod.mk.inj h
    exact readIpv6Addr_taken hx

/-- An address holds digits, colons and dots, and nothing else. -/
theorem addressChar_of_parse (h : (parseIpAddr s).isSome = true) : ∀ c ∈ s, AddressChar c := by
  obtain ⟨ip, hip⟩ := Option.isSome_iff_exists.mp h
  rw [parseIpAddr, parseWith] at hip
  split at hip
  · rename_i ip' hread
    obtain ⟨front, rfl, hfront⟩ := readIpAddr_taken hread
    rwa [List.append_nil]
  · cases hip

end Ed2kServer.Text.IpAddress
