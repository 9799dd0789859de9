import Ed2kServer.Slab.MediaFields

namespace Ed2kServer.Slab.LengthText

open Ed2kServer.Text.Chars Ed2kServer.Slab.MediaFields

def checkedAdd (a b : UInt64) : Option UInt64 :=
  if a.toNat + b.toNat < 2 ^ 64 then some (a + b) else none

def checkedSub (a b : UInt64) : Option UInt64 := if b ≤ a then some (a - b) else none

def checkedMul (a b : UInt64) : Option UInt64 :=
  if a.toNat * b.toNat < 2 ^ 64 then some (a * b) else none

/-- The loop of `parse_length_text` with its overflow checks; `none` is their panic. -/
def parseLengthFrom (total cur : UInt64) : Str → Option UInt32
  | [] => do
    let sum ← checkedAdd total cur
    return (min sum 0xFFFFFFFF).toUInt32
  | c :: rest =>
    if c.isDigit then do
      let tens ← checkedMul cur 10
      let sum ← checkedAdd tens (UInt64.ofNat c.toNat)
      let next ← checkedSub sum (UInt64.ofNat '0'.toNat)
      parseLengthFrom total (min next 0xFFFFFFFF) rest
    else if c = ':' then do
      let sum ← checkedAdd total cur
      let next ← checkedMul sum 60
      parseLengthFrom next 0 rest
    else some 0

def parseLengthChecked (U : Unicode) (s : Str) : Option UInt32 := parseLengthFrom 0 0 (U.trim s)

def MAX : Nat := 0xFFFFFFFF

/-- The number a field writes, capped. -/
def fieldValue (digits : Str) : Nat :=
  min MAX (digits.foldl (fun v c => 10 * v + (c.toNat - '0'.toNat)) 0)

def fields (t : Str) : List Nat := (t.splitOn ':').map fieldValue

/-- The value of `fields` in base 60 behind what comes before them. -/
def base60 (before : Nat) (fields : List Nat) : Nat := fields.foldl (fun v f => 60 * v + f) before

def isClock (c : Char) : Bool := c.isDigit || c == ':'

/-- The length a text gives. -/
def lengthOf (t : Str) : UInt32 :=
  if t.all isClock then UInt32.ofNat (min MAX (base60 0 (fields t))) else 0

/-- No step leaves 64 bits, and the result is the length the text gives. -/
def Exact (U : Unicode) (s : Str) : Prop :=
  parseLengthChecked U s = some (lengthOf (U.trim s)) ∧
    parseLengthText U s = lengthOf (U.trim s)

/-- The value of the fields fits 64 bits; in front of a character that ends the parse, the one
field that is not added yet is of no matter. -/
def Fits (t : Str) : Prop :=
  if t.all isClock then base60 0 (fields t) < 2 ^ 64
  else 60 * base60 0 (fields (t.takeWhile isClock)).dropLast < 2 ^ 64

section Checked

variable {a b : Nat}

theorem checkedAdd_ofNat (ha : a < 2 ^ 64) (hb : b < 2 ^ 64) :
    checkedAdd (UInt64.ofNat a) (UInt64.ofNat b) =
      if a + b < 2 ^ 64 then some (UInt64.ofNat (a + b)) else none := by
  rw [checkedAdd, UInt64.toNat_ofNat_of_lt' ha, UInt64.toNat_ofNat_of_lt' hb, UInt64.ofNat_add]

theorem checkedMul_ofNat (ha : a < 2 ^ 64) (hb : b < 2 ^ 64) :
    checkedMul (UInt64.ofNat a) (UInt64.ofNat b) =
      if a * b < 2 ^ 64 then some (UInt64.ofNat (a * b)) else none := by
  rw [checkedMul, UInt64.toNat_ofNat_of_lt' ha, UInt64.toNat_ofNat_of_lt' hb, UInt64.ofNat_mul]

theorem min_ofNat (ha : a < 2 ^ 64) :
    min (UInt64.ofNat a) 0xFFFFFFFF = UInt64.ofNat (min MAX a) := by
  have hle : UInt64.ofNat a ≤ 0xFFFFFFFF ↔ a ≤ MAX := by
    rw [UInt64.le_iff_toNat_le, UInt64.toNat_ofNat_of_lt' ha]
    rfl
  have hmin : min (UInt64.ofNat a) 0xFFFFFFFF =
      if UInt64.ofNat a ≤ 0xFFFFFFFF then UInt64.ofNat a else 0xFFFFFFFF := rfl
  rw [hmin]
  by_cases h : a ≤ MAX
  · rw [if_pos (hle.mpr h), Nat.min_eq_right h]
  · rw [if_neg (mt hle.mp h), Nat.min_eq_left (Nat.le_of_not_le h)]
    rfl

end Checked

theorem isDigit_toNat {c : Char} (h : c.isDigit = true) : 48 ≤ c.toNat ∧ c.toNat ≤ 57 := by
  rw [Char.isDigit, Bool.and_eq_true, decide_eq_true_eq, decide_eq_true_eq] at h
  exact ⟨UInt32.le_iff_toNat_le.mp h.1, UInt32.le_iff_toNat_le.mp h.2⟩

/-- A digit more, capped again. -/
theorem fieldValue_concat (ds : Str) (c : Char) :
    fieldValue (ds ++ [c]) = min MAX (10 * fieldValue ds + (c.toNat - '0'.toNat)) := by
  rw [fieldValue, fieldValue, List.foldl_append, List.foldl_cons, List.foldl_nil]
  omega

theorem fieldValue_le (ds : Str) : fieldValue ds ≤ MAX := Nat.min_le_left _ _

theorem le_base60 (fs : List Nat) (before : Nat) : before ≤ base60 before fs := by
  induction fs generalizing before with
  | nil => exact Nat.le_refl _
  | cons f fs ih =>
    have h := ih (60 * before + f)
    rw [base60, List.foldl_cons]
    rw [base60] at h
    omega

theorem base60_concat (before : Nat) (fs : List Nat) (f : Nat) :
    base60 before (fs ++ [f]) = 60 * base60 before fs + f := by
  rw [base60, List.foldl_append]
  rfl

/-- A digit keeps the field within its cap. -/
theorem digit_step {c : Char} (hc : c.isDigit = true) (total : UInt64) (ds rest : Str) :
    parseLengthFrom total (UInt64.ofNat (fieldValue ds)) (c :: rest) =
      parseLengthFrom total (UInt64.ofNat (fieldValue (ds ++ [c]))) rest := by
  obtain ⟨hlo, hhi⟩ := isDigit_toNat hc
  have hf := fieldValue_le ds
  have hmax : MAX = 2 ^ 32 - 1 := rfl
  have hten : (10 : UInt64) = UInt64.ofNat 10 := rfl
  have hzero : '0'.toNat = 48 := rfl
  have hsub : checkedSub (UInt64.ofNat (fieldValue ds * 10 + c.toNat)) (UInt64.ofNat 48) =
      some (UInt64.ofNat (10 * fieldValue ds + (c.toNat - 48))) := by
    have hle : UInt64.ofNat 48 ≤ UInt64.ofNat (fieldValue ds * 10 + c.toNat) := by
      have hsize : UInt64.size = 2 ^ 64 := rfl
      rw [UInt64.le_iff_toNat_le, UInt64.toNat_ofNat_of_lt' (by omega),
        UInt64.toNat_ofNat_of_lt' (by omega)]
      omega
    rw [checkedSub, if_pos hle, ← UInt64.ofNat_sub (by omega)]
    congr 2
    omega
  rw [parseLengthFrom, if_pos hc, hten, checkedMul_ofNat (by omega) (by omega),
    if_pos (by omega), Option.bind_eq_bind, Option.bind_some,
    checkedAdd_ofNat (by omega) (by omega), if_pos (by omega)]
  simp only [Option.bind_some]
  rw [hzero, hsub, Option.bind_some, min_ofNat (by omega), fieldValue_concat, hzero]

theorem colon_step {before f : Nat} (hb : 60 * before < 2 ^ 64) (hf : f ≤ MAX) (rest : Str) :
    parseLengthFrom (UInt64.ofNat (60 * before)) (UInt64.ofNat f) (':' :: rest) =
      if 60 * (60 * before + f) < 2 ^ 64 then
        parseLengthFrom (UInt64.ofNat (60 * (60 * before + f))) 0 rest
      else none := by
  have hmax : MAX = 2 ^ 32 - 1 := rfl
  have hsixty : (60 : UInt64) = UInt64.ofNat 60 := rfl
  rw [parseLengthFrom, if_neg (by decide), if_pos rfl, hsixty,
    checkedAdd_ofNat hb (by omega)]
  by_cases hsum : 60 * before + f < 2 ^ 64
  · rw [if_pos hsum, Option.bind_eq_bind, Option.bind_some, checkedMul_ofNat hsum (by omega),
      Nat.mul_comm]
    split <;> rfl
  · rw [if_neg hsum, if_neg (by omega)]
    rfl

theorem splitOn_digits {ds : Str} (hds : ∀ c ∈ ds, c.isDigit = true) : ':' ∉ ds := by
  intro hm
  exact absurd (hds ':' hm) (by decide)

/-- Over digits and colons the loop keeps the exact value, while it fits. -/
theorem loop_clock {p : Str} (hp : ∀ c ∈ p, isClock c = true) {ds : Str}
    (hds : ∀ c ∈ ds, c.isDigit = true) {before : Nat} (hb : 60 * before < 2 ^ 64) (rest : Str) :
    parseLengthFrom (UInt64.ofNat (60 * before)) (UInt64.ofNat (fieldValue ds)) (p ++ rest) =
      if 60 * base60 before (fields (ds ++ p)).dropLast < 2 ^ 64 then
        parseLengthFrom (UInt64.ofNat (60 * base60 before (fields (ds ++ p)).dropLast))
          (UInt64.ofNat ((fields (ds ++ p)).getLastD 0)) rest
      else none := by
  induction p generalizing ds before with
  | nil =>
    have hfields : fields (ds ++ []) = [fieldValue ds] := by
      rw [List.append_nil, fields, List.splitOn_eq_singleton (splitOn_digits hds),
        List.map_singleton]
    rw [hfields]
    exact (if_pos hb).symm
  | cons c p ih =>
    obtain ⟨hc, hrest⟩ := List.forall_mem_cons.mp hp
    rw [isClock, Bool.or_eq_true, beq_iff_eq] at hc
    rw [List.cons_append]
    obtain hc | rfl := hc
    · have hds' : ∀ x ∈ ds ++ [c], x.isDigit = true := by
        intro x hx
        obtain hx | hx := List.mem_append.mp hx
        · exact hds x hx
        · rwa [List.mem_singleton.mp hx]
      have happend : ds ++ c :: p = (ds ++ [c]) ++ p := by simp
      rw [digit_step hc, ih hrest hds' hb, happend]
    · have hfields : fields (ds ++ ':' :: p) = fieldValue ds :: fields p := by
        rw [fields, List.splitOn_append_cons_self, List.splitOn_eq_singleton (splitOn_digits hds)]
        rfl
      have hne : fields p ≠ [] := by
        rw [fields, Ne, List.map_eq_nil_iff]
        exact List.splitOn_ne_nil _ _
      have hdrop : base60 before (fieldValue ds :: fields p).dropLast =
          base60 (60 * before + fieldValue ds) (fields p).dropLast := by
        rw [List.dropLast_cons_of_ne_nil hne]
        rfl
      have hlast : (fieldValue ds :: fields p).getLastD 0 = (fields p).getLastD 0 := by
        cases hf : fields p with
        | nil => exact absurd hf hne
        | cons f fs => rfl
      rw [colon_step hb (fieldValue_le ds), hfields, hdrop, hlast]
      have hgrow := le_base60 (fields p).dropLast (60 * before + fieldValue ds)
      by_cases hmul : 60 * (60 * before + fieldValue ds) < 2 ^ 64
      · have hzero : (0 : UInt64) = UInt64.ofNat (fieldValue []) := rfl
        rw [if_pos hmul, hzero, ih hrest (fun c hc => absurd hc List.not_mem_nil) hmul,
          List.nil_append]
      · rw [if_neg hmul, if_neg (by omega)]

/-- The loop ends with the length of the text, or with a panic. -/
theorem parseLengthFrom_eq (t : Str) :
    (Fits t → parseLengthFrom 0 0 t = some (lengthOf t)) ∧
      (¬ Fits t → parseLengthFrom 0 0 t = none) := by
  set p := t.takeWhile isClock with hp
  have hclock : ∀ c ∈ p, isClock c = true := fun c hc => List.mem_takeWhile_imp hc
  have hsplit : p ++ t.dropWhile isClock = t := List.takeWhile_append_dropWhile
  have hempty : ∀ c ∈ ([] : Str), c.isDigit = true := fun c hc => absurd hc List.not_mem_nil
  have hzero : 60 * 0 < 2 ^ 64 := by decide
  have hrun := loop_clock hclock hempty hzero (t.dropWhile isClock)
  rw [hsplit, List.nil_append] at hrun
  have hstart : parseLengthFrom (UInt64.ofNat (60 * 0)) (UInt64.ofNat (fieldValue [])) t =
      parseLengthFrom 0 0 t := rfl
  rw [hstart] at hrun
  rw [hrun, Fits, lengthOf]
  cases hrest : t.dropWhile isClock with
  | nil =>
    have hall : t.all isClock = true := by
      rw [hrest, List.append_nil] at hsplit
      rw [List.all_eq_true]
      exact fun c hc => hclock c (by rwa [hsplit])
    have ht : p = t := by rw [hrest, List.append_nil] at hsplit; exact hsplit
    obtain ⟨fs, f, hfields⟩ : ∃ fs f, fields t = fs ++ [f] := by
      have hne : fields t ≠ [] := by
        rw [fields, Ne, List.map_eq_nil_iff]
        exact List.splitOn_ne_nil _ _
      exact ⟨_, _, (List.dropLast_append_getLast hne).symm⟩
    have hle : f ≤ MAX := by
      have hf : f ∈ fields t := by rw [hfields]; simp
      obtain ⟨ds, -, rfl⟩ := List.mem_map.mp hf
      exact fieldValue_le ds
    have hmax : MAX = 2 ^ 32 - 1 := rfl
    rw [ht, if_pos hall, if_pos hall, hfields, List.dropLast_concat, base60_concat]
    simp only [List.getLastD_concat]
    constructor
    · intro hsum
      have hdrop : 60 * base60 0 fs < 2 ^ 64 := by omega
      rw [if_pos hdrop, parseLengthFrom, checkedAdd_ofNat hdrop (by omega), if_pos hsum]
      simp only [Option.bind_eq_bind, Option.bind_some, Option.pure_def, Option.some.injEq]
      rw [min_ofNat hsum]
      exact UInt64.toUInt32_ofNat' (n := min MAX (60 * base60 0 fs + f))
    · intro hsum
      by_cases hdrop : 60 * base60 0 fs < 2 ^ 64
      · rw [if_pos hdrop, parseLengthFrom, checkedAdd_ofNat hdrop (by omega), if_neg hsum]
        rfl
      · rw [if_neg hdrop]
  | cons b rest =>
    have hb : isClock b = false := by
      have hhead := List.head?_dropWhile_not isClock t
      rw [hrest] at hhead
      simpa using hhead
    have hall : t.all isClock = false := by
      rw [List.all_eq_false]
      refine ⟨b, ?_, by simp [hb]⟩
      rw [← hsplit, hrest]
      simp
    obtain ⟨hdigit, hcolon⟩ : b.isDigit = false ∧ b ≠ ':' := by
      rwa [isClock, Bool.or_eq_false_iff, beq_eq_false_iff_ne] at hb
    rw [hall, if_neg Bool.false_ne_true, if_neg Bool.false_ne_true, parseLengthFrom,
      if_neg (ne_true_of_eq_false hdigit), if_neg hcolon, ← hp]
    exact ⟨fun h => if_pos h, fun h => if_neg h⟩

/-- One character of the loop without overflow checks. -/
def wrappingStep (acc : Option (UInt64 × UInt64)) (c : Char) : Option (UInt64 × UInt64) :=
  acc.bind (fun (total, cur) =>
    if c.isDigit then
      some (total, min (cur * 10 + UInt64.ofNat (c.toNat - '0'.toNat)) 0xFFFFFFFF)
    else if c = ':' then some ((total + cur) * 60, 0)
    else none)

def wrappingEnd : Option (UInt64 × UInt64) → UInt32
  | some (total, cur) => (min (total + cur) 0xFFFFFFFF).toUInt32
  | none => 0

theorem parseLengthText_eq (U : Unicode) (s : Str) :
    parseLengthText U s = wrappingEnd ((U.trim s).foldl wrappingStep (some (0, 0))) := rfl

theorem foldl_wrapping_none (t : Str) : t.foldl wrappingStep none = none := by
  induction t with
  | nil => rfl
  | cons c t ih => exact ih

/-- Where no check fires, both builds compute the same. -/
theorem wrapping_of_checked {t : Str} {total cur : UInt64} {v : UInt32}
    (h : parseLengthFrom total cur t = some v) :
    wrappingEnd (t.foldl wrappingStep (some (total, cur))) = v := by
  have hadd : ∀ {a b c : UInt64}, checkedAdd a b = some c → c = a + b := by
    intro a b c hc
    rw [checkedAdd] at hc
    split at hc
    · exact (Option.some.inj hc).symm
    · cases hc
  have hmul : ∀ {a b c : UInt64}, checkedMul a b = some c → c = a * b := by
    intro a b c hc
    rw [checkedMul] at hc
    split at hc
    · exact (Option.some.inj hc).symm
    · cases hc
  have hsub : ∀ {a b c : UInt64}, checkedSub a b = some c → c = a - b := by
    intro a b c hc
    rw [checkedSub] at hc
    split at hc
    · exact (Option.some.inj hc).symm
    · cases hc
  induction t generalizing total cur with
  | nil =>
    obtain ⟨sum, hsum, h⟩ := Option.bind_eq_some_iff.mp h
    rw [← Option.some.inj h, hadd hsum]
    rfl
  | cons c t ih =>
    rw [parseLengthFrom] at h
    rw [List.foldl_cons, wrappingStep, Option.bind_some]
    by_cases hc : c.isDigit = true
    · rw [if_pos hc] at h
      obtain ⟨tens, htens, h⟩ := Option.bind_eq_some_iff.mp h
      obtain ⟨sum, hsum, h⟩ := Option.bind_eq_some_iff.mp h
      obtain ⟨next, hnext, h⟩ := Option.bind_eq_some_iff.mp h
      have hvalue : next = cur * 10 + UInt64.ofNat (c.toNat - '0'.toNat) := by
        have hzero : '0'.toNat = 48 := rfl
        rw [hsub hnext, hadd hsum, hmul htens, hzero, UInt64.ofNat_sub (isDigit_toNat hc).1,
          UInt64.sub_eq_add_neg, UInt64.sub_eq_add_neg, UInt64.add_assoc]
      have hstep := ih h
      rw [hvalue] at hstep
      simp only [if_pos hc]
      exact hstep
    · rw [if_neg hc] at h
      by_cases hcolon : c = ':'
      · rw [if_pos hcolon] at h
        obtain ⟨sum, hsum, h⟩ := Option.bind_eq_some_iff.mp h
        obtain ⟨next, hnext, h⟩ := Option.bind_eq_some_iff.mp h
        have hstep := ih h
        rw [hmul hnext, hadd hsum] at hstep
        simp only [if_neg hc, if_pos hcolon]
        exact hstep
      · rw [if_neg hcolon] at h
        simp only [if_neg hc, if_neg hcolon, foldl_wrapping_none]
        exact Option.some.inj h

/-- The length is exact, and no step overflows, exactly when the fields fit 64 bits. -/
theorem parseLengthText_exact_iff (U : Unicode) (s : Str) : Exact U s ↔ Fits (U.trim s) := by
  obtain ⟨hfit, hover⟩ := parseLengthFrom_eq (U.trim s)
  constructor
  · intro h
    by_contra hfits
    rw [Exact, parseLengthChecked, hover hfits] at h
    cases h.1
  · intro h
    refine ⟨hfit h, ?_⟩
    rw [parseLengthText_eq]
    exact wrapping_of_checked (hfit h)

/-- A digit and 32 colons. -/
def longClock : Str := '1' :: List.replicate 32 ':'

/-- A checked build panics, an unchecked one finds no length at all. -/
theorem longClock_not_exact : ¬ Exact basicLatin longClock ∧
    parseLengthChecked basicLatin longClock = none ∧
    parseLengthText basicLatin longClock = 0 ∧
    lengthOf (basicLatin.trim longClock) = 0xFFFFFFFF := by
  have hpanic : parseLengthChecked basicLatin longClock = none := by decide
  refine ⟨fun h => ?_, hpanic, by decide +kernel, by decide +kernel⟩
  rw [Exact, hpanic] at h
  cases h.1

end Ed2kServer.Slab.LengthText
