import Ed2kServer.Filter.MaxMindValue
import Ed2kServer.Lib.Bytes

namespace Ed2kServer.Filter.MaxMind

open Ed2kServer.Filter.Check (fromUtf8)
open Ed2kServer.Lib.LittleEndian Ed2kServer.Lib.Bytes Ed2kServer.Lib.Metered
open Ed2kServer.Text.Utf8

/-- The low `k` bytes of a number, the highest first. -/
def beBytes (k n : Nat) : List UInt8 := (leBytes k n).reverse

/-- One more than the greatest size the control bytes can say. -/
def sizeLimit : Nat := 65821 + 256 ^ 3

def sizeBits (size : Nat) : Nat :=
  if size < 29 then size else if size < 285 then 29 else if size < 65821 then 30 else 31

def sizeBytes (size : Nat) : List UInt8 :=
  if size < 29 then []
  else if size < 285 then [UInt8.ofNat (size - 29)]
  else if size < 65821 then beBytes 2 (size - 285)
  else beBytes 3 (size - 65821)

/-- A type of more than three bits has a byte of its own. -/
def control (typ size : Nat) : List UInt8 :=
  if typ < 8 then UInt8.ofNat (typ * 32 + sizeBits size) :: sizeBytes size
  else UInt8.ofNat (sizeBits size) :: UInt8.ofNat (typ - 7) :: sizeBytes size

/-- The first target a pointer of so many bytes can have. -/
def pointerBase (width : Nat) : Nat :=
  if width = 2 then 2048 else if width = 3 then 526336 else 0

def PointerFits (width target : Nat) : Prop :=
  0 < width ∧ width ≤ 4 ∧ pointerBase width ≤ target ∧
    target - pointerBase width < (if width = 4 then 1 else 8) * 256 ^ width

def pointer (width target : Nat) : List UInt8 :=
  UInt8.ofNat (32 + 8 * (width - 1) + (target - pointerBase width) / 256 ^ width) ::
    beBytes width (target - pointerBase width)

/-- The encoding of a value takes the bytes from `pos` up to `e`: its own ones (`inline`), or those
of a pointer to where its own are. -/
inductive EncodedAt (buf : List UInt8) : Bool → Value → Nat → Nat → Prop
  | scalar {typ : Nat} {payload : List UInt8} {pos : Nat} : 0 < typ → typ < 256 →
      typ ∉ [tPointer, tMap, tArray, tBool] → payload.length < sizeLimit →
      StandsAt buf (control typ payload.length ++ payload) pos →
      EncodedAt buf true (.scalar typ payload) pos
        (pos + (control typ payload.length ++ payload).length)
  | bool {b : Bool} {pos : Nat} : StandsAt buf (control tBool b.toNat) pos →
      EncodedAt buf true (.bool b) pos (pos + (control tBool b.toNat).length)
  | container {v : Value} {pos : Nat} (place : Nat → Nat) (inline : Nat → Bool) :
      v.isContainer = true → v.count < sizeLimit → StandsAt buf (control v.typ v.count) pos →
      place 0 = pos + (control v.typ v.count).length →
      (∀ i (hi : i < v.items.length),
        EncodedAt buf (inline i) v.items[i] (place i) (place (i + 1))) →
      EncodedAt buf true v pos (place v.items.length)
  | pointer {v : Value} {width target pos e : Nat} : PointerFits width target →
      StandsAt buf (pointer width target) pos → EncodedAt buf true v target e →
      EncodedAt buf false v pos (pos + (pointer width target).length)

section Bytes

variable {buf bytes more : List UInt8} {pos n k : Nat}

theorem slice_eq (hbuf : buf.length < 2 ^ 64) (h : StandsAt buf bytes pos) :
    slice buf pos bytes.length = some bytes := by
  have hle := standsAt_le h
  rw [slice, checkedAdd, if_pos (hle.trans_lt hbuf), Option.bind_some, if_pos hle,
    take_drop_of_standsAt h]

theorem ofBeBytes_concat (bytes : List UInt8) (b : UInt8) :
    ofBeBytes (bytes ++ [b]) = ofBeBytes bytes * 256 + b.toNat := by
  rw [ofBeBytes, List.foldl_append]
  rfl

theorem ofBeBytes_reverse (bytes : List UInt8) : ofBeBytes bytes.reverse = ofLeBytes bytes := by
  induction bytes with
  | nil => rfl
  | cons b bytes ih => rw [List.reverse_cons, ofBeBytes_concat, ih, ofLeBytes]; omega

theorem ofBeBytes_beBytes (k n : Nat) : ofBeBytes (beBytes k n) = n % 256 ^ k := by
  rw [beBytes, ofBeBytes_reverse, ofLeBytes_leBytes]

@[simp] theorem length_beBytes (k n : Nat) : (beBytes k n).length = k := by
  rw [beBytes, List.length_reverse, length_leBytes]

theorem gives_byte {b : UInt8} (h : StandsAt buf (b :: bytes) pos) :
    Gives (byte buf pos) 0 (some b.toNat) := by
  have hget : buf[pos]? = some b := by
    obtain ⟨front, back, rfl, rfl⟩ := h
    simp
  rw [byte, hget]
  exact gives_ofOption _

theorem gives_be (hbuf : buf.length < 2 ^ 64) (h : StandsAt buf (beBytes k n) pos) :
    Gives (be buf pos k) 0 (some (n % 256 ^ k)) := by
  have hslice := slice_eq hbuf h
  rw [length_beBytes] at hslice
  rw [be, hslice, Option.map_some, ofBeBytes_beBytes]
  exact gives_ofOption _

end Bytes

section Headers

variable {buf : List UInt8} {pos size typ : Nat}

theorem sizeBits_lt (size : Nat) : sizeBits size < 32 := by
  rw [sizeBits]
  split_ifs <;> omega

theorem gives_sizeField (hbuf : buf.length < 2 ^ 64) (hsize : size < sizeLimit)
    (h : StandsAt buf (sizeBytes size) pos) :
    Gives (sizeField buf (sizeBits size) pos) 0 (some (size, pos + (sizeBytes size).length)) := by
  rw [sizeLimit] at hsize
  rw [sizeBytes] at h ⊢
  rw [sizeField, sizeBits]
  by_cases h₁ : size < 29
  · rw [if_pos h₁, if_neg (by omega), if_neg (by omega), if_neg (by omega), if_pos h₁]
    exact gives_pure _
  rw [if_neg h₁] at h ⊢
  rw [if_neg h₁]
  by_cases h₂ : size < 285
  · rw [if_pos h₂] at h ⊢
    rw [if_pos h₂, if_pos rfl]
    refine gives_return (gives_byte h) (Prod.ext ?_ rfl)
    change 29 + (UInt8.ofNat (size - 29)).toNat = size
    rw [UInt8.toNat_ofNat']
    omega
  rw [if_neg h₂] at h ⊢
  rw [if_neg h₂]
  by_cases h₃ : size < 65821
  · rw [if_pos h₃] at h ⊢
    rw [if_pos h₃, if_neg (by decide), if_pos rfl, length_beBytes]
    refine gives_return (gives_be hbuf h) (Prod.ext ?_ rfl)
    change 285 + (size - 285) % 256 ^ 2 = size
    omega
  · rw [if_neg h₃] at h ⊢
    rw [if_neg h₃, if_neg (by decide), if_neg (by decide), if_pos rfl, length_beBytes]
    refine gives_return (gives_be hbuf h) (Prod.ext ?_ rfl)
    change 65821 + (size - 65821) % 256 ^ 3 = size
    omega

theorem gives_rawHeader (hbuf : buf.length < 2 ^ 64) (htyp : 0 < typ ∧ typ < 256)
    (hpointer : typ ≠ tPointer) (hsize : size < sizeLimit)
    (h : StandsAt buf (control typ size) pos) :
    Gives (rawHeader buf pos) 1 (some ⟨typ, size, pos + (control typ size).length⟩) := by
  have hbits := sizeBits_lt size
  rw [control] at h ⊢
  by_cases h₈ : typ < 8
  · rw [if_pos h₈] at h ⊢
    have hctrl : (UInt8.ofNat (typ * 32 + sizeBits size)).toNat = typ * 32 + sizeBits size := by
      rw [UInt8.toNat_ofNat']
      omega
    have hfield : Gives (typeField buf (typ * 32 + sizeBits size) (pos + 1)) 0
        (some (typ, pos + 1)) := by
      rw [typeField, if_neg (by omega)]
      have hdiv : (typ * 32 + sizeBits size) / 32 = typ := by omega
      rw [hdiv]
      exact gives_pure _
    have hmod : (typ * 32 + sizeBits size) % 32 = sizeBits size := by omega
    have hread := gives_sizeField hbuf hsize (standsAt_tail h)
    rw [← hmod] at hread
    have hbyte := gives_byte h
    rw [hctrl] at hbyte
    refine gives_charged (gives_bind_free hbyte (gives_bind_free hfield ?_))
    simp only [if_neg hpointer]
    refine gives_return hread ?_
    simp only [List.length_cons]
    congr 1
    omega
  · rw [if_neg h₈] at h ⊢
    have hctrl : (UInt8.ofNat (sizeBits size)).toNat = sizeBits size := by
      rw [UInt8.toNat_ofNat']
      omega
    have hext : (UInt8.ofNat (typ - 7)).toNat = typ - 7 := by
      rw [UInt8.toNat_ofNat']
      omega
    have hsecond := gives_byte (standsAt_tail h)
    rw [hext] at hsecond
    have hfield : Gives (typeField buf (sizeBits size) (pos + 1)) 0 (some (typ, pos + 1 + 1)) := by
      rw [typeField, if_pos (by omega)]
      refine gives_bind_free hsecond ?_
      rw [if_pos (by omega)]
      have hsum : 7 + (typ - 7) = typ := by omega
      rw [hsum]
      exact gives_pure _
    have hmod : sizeBits size % 32 = sizeBits size := Nat.mod_eq_of_lt hbits
    have hread := gives_sizeField hbuf hsize (standsAt_tail (standsAt_tail h))
    rw [← hmod] at hread
    have hbyte := gives_byte h
    rw [hctrl] at hbyte
    refine gives_charged (gives_bind_free hbyte (gives_bind_free hfield ?_))
    simp only [if_neg hpointer]
    refine gives_return hread ?_
    simp only [List.length_cons]
    congr 1
    omega

variable {width target : Nat}

/-- The bits of a pointer's first byte that belong to the target. -/
theorem high_lt (h : PointerFits width target) :
    (target - pointerBase width) / 256 ^ width < 8 ∧
      (width = 4 → (target - pointerBase width) / 256 ^ width = 0) := by
  obtain ⟨-, -, -, hlt⟩ := h
  refine ⟨Nat.div_lt_of_lt_mul (hlt.trans_le ?_), ?_⟩
  · rw [Nat.mul_comm]
    exact Nat.mul_le_mul_left _ (by split_ifs <;> decide)
  · rintro rfl
    rw [if_pos rfl, Nat.one_mul] at hlt
    exact Nat.div_eq_of_lt hlt

theorem gives_pointer (hbuf : buf.length < 2 ^ 64) (hfits : PointerFits width target)
    (h : StandsAt buf (pointer width target) pos) :
    ∃ size, Gives (rawHeader buf pos) 1 (some ⟨tPointer, size, pos + 1⟩) ∧
      Gives (pointerTarget buf size (pos + 1)) 0
        (some (target, pos + (pointer width target).length)) := by
  obtain ⟨hhigh, hzero⟩ := high_lt hfits
  obtain ⟨hpos, hle, hbase, -⟩ := hfits
  have hsum := Nat.div_add_mod' (target - pointerBase width) (256 ^ width)
  rw [pointer] at h ⊢
  generalize (target - pointerBase width) / 256 ^ width = high at *
  have hnat : (UInt8.ofNat (32 + 8 * (width - 1) + high)).toNat = 32 + 8 * (width - 1) + high := by
    rw [UInt8.toNat_ofNat']
    omega
  have hbyte := gives_byte h
  have hread := gives_be hbuf (standsAt_tail h)
  have hlen : pos + (UInt8.ofNat (32 + 8 * (width - 1) + high) ::
      beBytes width (target - pointerBase width)).length = pos + 1 + width := by
    rw [List.length_cons, length_beBytes]
    omega
  rw [hnat] at hbyte
  rw [hlen]
  refine ⟨8 * (width - 1) + high, gives_charged (gives_bind_free hbyte ?_), ?_⟩
  · have hdiv : (32 + 8 * (width - 1) + high) / 32 = 1 := by omega
    have hrem : (32 + 8 * (width - 1) + high) % 32 = 8 * (width - 1) + high := by omega
    rw [typeField, hdiv, hrem]
    exact gives_pure _
  · have hform : (8 * (width - 1) + high) / 8 % 4 = width - 1 := by omega
    have hlow : (8 * (width - 1) + high) % 8 = high := by omega
    rw [pointerTarget, hform, hlow]
    obtain rfl | rfl | rfl | rfl : width = 1 ∨ width = 2 ∨ width = 3 ∨ width = 4 := by omega
    · exact gives_return hread (Prod.ext hsum rfl)
    · have hbase₂ : pointerBase 2 = 2048 := rfl
      rw [hbase₂] at hsum hread hbase
      rw [if_neg (by decide), if_pos rfl]
      refine gives_return hread ?_
      rw [hsum, Nat.sub_add_cancel hbase]
    · have hbase₃ : pointerBase 3 = 526336 := rfl
      rw [hbase₃] at hsum hread hbase
      rw [if_neg (by decide), if_neg (by decide), if_pos rfl]
      refine gives_return hread ?_
      rw [hsum, Nat.sub_add_cancel hbase]
    · refine gives_return hread (Prod.ext ?_ rfl)
      rw [hzero rfl, Nat.zero_mul, Nat.zero_add] at hsum
      exact hsum

end Headers

section Values

variable {buf : List UInt8} {v w : Value} {inline : Bool} {pos e p : Nat} {key : Str}

/-- What stands where the header of a value says that its payload starts. -/
def PayloadAt (buf : List UInt8) (v : Value) (p : Nat) : Prop :=
  (∀ typ payload, v = .scalar typ payload → typ ∉ [tPointer, tMap, tArray, tBool] ∧
    StandsAt buf payload p) ∧
  ∃ (place : Nat → Nat) (inline : Nat → Bool), place 0 = p ∧ ∀ i (hi : i < v.items.length),
    EncodedAt buf (inline i) v.items[i] (place i) (place (i + 1))

theorem payloadAt_of_items_eq_nil (hitems : v.items = []) (hscalar : ∀ typ payload,
    v = .scalar typ payload → typ ∉ [tPointer, tMap, tArray, tBool] ∧ StandsAt buf payload p) :
    PayloadAt buf v p := by
  refine ⟨hscalar, fun _ => p, fun _ => true, rfl, fun i hi => ?_⟩
  rw [hitems] at hi
  exact absurd hi (Nat.not_lt_zero i)

theorem isContainer_iff (hplain : ∀ typ payload, v = .scalar typ payload →
    typ ∉ [tPointer, tMap, tArray, tBool]) :
    v.isContainer = true ↔ v.typ = tMap ∨ v.typ = tArray := by
  cases v with
  | scalar typ payload =>
    have hne : typ ≠ tPointer ∧ typ ≠ tMap ∧ typ ≠ tArray ∧ typ ≠ tBool := by
      simpa using hplain typ payload rfl
    exact iff_of_false Bool.false_ne_true fun hor => hor.elim hne.2.1 hne.2.2.1
  | bool b => exact iff_of_false Bool.false_ne_true (by rw [Value.typ]; decide)
  | array items => exact iff_of_true rfl (Or.inr rfl)
  | map entries => exact iff_of_true rfl (Or.inl rfl)

theorem gives_container (hbuf : buf.length < 2 ^ 64) (hcontainer : v.isContainer = true)
    (hsize : v.count < sizeLimit) (hstands : StandsAt buf (control v.typ v.count) pos) :
    v.typ ≠ tPointer ∧ Gives (rawHeader buf pos) 1
      (some ⟨v.typ, v.count, pos + (control v.typ v.count).length⟩) := by
  have hplain : ∀ typ payload, v = .scalar typ payload →
      typ ∉ [tPointer, tMap, tArray, tBool] := by
    rintro typ payload rfl
    cases hcontainer
  have htyp : (0 < v.typ ∧ v.typ < 256) ∧ v.typ ≠ tPointer := by
    obtain htyp | htyp := (isContainer_iff hplain).mp hcontainer <;> rw [htyp] <;> decide
  exact ⟨htyp.2, gives_rawHeader hbuf htyp.1 htyp.2 hsize hstands⟩

/-- The header of a value's own bytes, with the position behind it if it is no container. -/
theorem header_inline (hbuf : buf.length < 2 ^ 64) (h : EncodedAt buf true v pos e) :
    ∃ p, Gives (rawHeader buf pos) 1 (some ⟨v.typ, v.count, p⟩) ∧ PayloadAt buf v p ∧
      v.typ ≠ tPointer ∧ (v.isContainer = false → e ≤ buf.length ∧
        e = if v.typ = tBool then p else p + v.count) := by
  cases h with
  | @scalar typ payload pos hpos hlt hplain hsize hstands =>
    have hne : typ ≠ tPointer ∧ typ ≠ tMap ∧ typ ≠ tArray ∧ typ ≠ tBool := by
      simpa using hplain
    refine ⟨_, gives_rawHeader hbuf ⟨hpos, hlt⟩ hne.1 hsize (standsAt_left hstands), ?_, hne.1,
      fun _ => ⟨standsAt_le hstands, ?_⟩⟩
    · refine payloadAt_of_items_eq_nil rfl ?_
      rintro _ _ heq
      cases heq
      exact ⟨hplain, standsAt_right hstands⟩
    · rw [Value.typ, Value.count, if_neg hne.2.2.2, List.length_append]
      omega
  | @bool b pos hstands =>
    have hlt : b.toNat < sizeLimit := (Bool.toNat_lt b).trans (by decide)
    have htyp : (Value.bool b).typ = tBool := rfl
    rw [htyp]
    refine ⟨_, gives_rawHeader hbuf (by decide) (by decide) hlt hstands, ?_, (by decide),
      fun _ => ⟨standsAt_le hstands, rfl⟩⟩
    exact payloadAt_of_items_eq_nil rfl fun _ _ heq => Value.noConfusion heq
  | @container v pos place inline hcontainer hsize hstands hplace hitems =>
    obtain ⟨hpointer, hraw⟩ := gives_container hbuf hcontainer hsize hstands
    refine ⟨_, hraw, ⟨?_, place, inline, hplace, hitems⟩, hpointer, fun hno => ?_⟩
    · rintro typ payload rfl
      cases hcontainer
    · rw [hcontainer] at hno
      cases hno

/-- The header of a value, behind a pointer or not. -/
theorem gives_header (hbuf : buf.length < 2 ^ 64) (h : EncodedAt buf inline v pos e) :
    ∃ p, Gives (header buf pos) 2 (some (⟨v.typ, v.count, p⟩,
        if inline = true ∧ v.isContainer = true then none else some e)) ∧ PayloadAt buf v p ∧
      (¬(inline = true ∧ v.isContainer = true) → e ≤ buf.length) := by
  cases inline with
  | true =>
    obtain ⟨p, hraw, hpayload, hpointer, hend⟩ := header_inline hbuf h
    have hcontainer := isContainer_iff fun typ payload hv => (hpayload.1 typ payload hv).1
    refine ⟨p, gives_bind 0 hraw ?_ (by decide), hpayload, ?_⟩
    · simp only [if_neg hpointer, ← hcontainer, true_and]
      cases hc : v.isContainer with
      | true => exact gives_pure _
      | false =>
        obtain ⟨hle, he⟩ := hend hc
        rw [if_neg Bool.false_ne_true, if_neg Bool.false_ne_true]
        by_cases hbool : v.typ = tBool
        · rw [if_pos hbool]
          rw [if_pos hbool] at he
          rw [he]
          exact gives_pure _
        · rw [if_neg hbool]
          rw [if_neg hbool] at he
          have hadd : checkedAdd p v.count = some e := by
            rw [checkedAdd, ← he, if_pos (hle.trans_lt hbuf)]
          rw [hadd]
          exact gives_return (gives_ofOption _) rfl
    · intro hno
      refine (hend ?_).1
      cases hc : v.isContainer with
      | true => exact absurd ⟨rfl, hc⟩ hno
      | false => rfl
  | false =>
    cases h with
    | @pointer _ width target _ e' hfits hstands hinline =>
      obtain ⟨size, hraw, htarget⟩ := gives_pointer hbuf hfits hstands
      obtain ⟨p, hraw', hpayload, hpointer, -⟩ := header_inline hbuf hinline
      refine ⟨p, gives_bind 1 hraw ?_ (by decide), hpayload, fun _ => standsAt_le hstands⟩
      rw [if_pos rfl]
      refine gives_bind_free htarget ?_
      refine gives_bind 0 hraw' ?_ (by decide)
      simp only [if_neg hpointer, Bool.false_eq_true, false_and, if_false]
      exact gives_pure _

theorem length_items (h : v.isContainer = true) :
    (if v.typ = tMap then v.count * 2 else v.count) = v.items.length := by
  cases v with
  | scalar typ payload => cases h
  | bool b => cases h
  | array items => rfl
  | map entries => exact (Value.length_flat entries).symm

theorem sum_costs (vs : List Value) :
    (vs.map fun w => 2 * w.size).sum = 2 * Value.sizeItems vs := by
  induction vs with
  | nil => rfl
  | cons w vs ih => rw [List.map_cons, List.sum_cons, ih, Value.sizeItems, Nat.mul_add]

/-- A value whose header says where it ends. -/
theorem gives_skipWithin_of_stop (hbuf : buf.length < 2 ^ 64) (h : EncodedAt buf inline v pos e)
    (hstop : ¬(inline = true ∧ v.isContainer = true)) (levels : Nat) :
    Gives (skipWithin buf (levels + 1) pos) (2 * v.size) (some e) := by
  obtain ⟨p, hheader, -, hle⟩ := gives_header hbuf h
  rw [if_neg hstop] at hheader
  have hsize := v.size_pos
  refine gives_bind 0 hheader ?_ (by omega)
  simp only [if_pos (hle hstop)]
  exact gives_pure e

/-- A value is skipped with at most two headers for each value in it. -/
theorem gives_skipWithin (hbuf : buf.length < 2 ^ 64) (h : EncodedAt buf inline v pos e)
    {levels : Nat} (hdepth : v.depth < levels) :
    Gives (skipWithin buf levels pos) (2 * v.size) (some e) := by
  induction h generalizing levels with
  | scalar hpos hlt hplain hsize hstands =>
    obtain ⟨l, rfl⟩ := Nat.exists_eq_add_of_lt hdepth
    exact gives_skipWithin_of_stop hbuf (.scalar hpos hlt hplain hsize hstands)
      (fun h => Bool.false_ne_true h.2) _
  | bool hstands =>
    obtain ⟨l, rfl⟩ := Nat.exists_eq_add_of_lt hdepth
    exact gives_skipWithin_of_stop hbuf (.bool hstands) (fun h => Bool.false_ne_true h.2) _
  | pointer hfits hstands hinline ih =>
    obtain ⟨l, rfl⟩ := Nat.exists_eq_add_of_lt hdepth
    exact gives_skipWithin_of_stop hbuf (.pointer hfits hstands hinline)
      (fun h => Bool.false_ne_true h.1) _
  | @container v pos place inline hcontainer hsize hstands hplace hitems ih =>
    obtain ⟨l, rfl⟩ := Nat.exists_eq_add_of_lt hdepth
    obtain ⟨hpointer, hraw⟩ := gives_container hbuf hcontainer hsize hstands
    have hplain : ∀ typ payload, v = .scalar typ payload →
        typ ∉ [tPointer, tMap, tArray, tBool] := by
      rintro typ payload rfl
      cases hcontainer
    have hheader : Gives (header buf pos) 1 (some (⟨v.typ, v.count, place 0⟩, none)) := by
      refine gives_bind 0 hraw ?_ (by decide)
      rw [if_neg hpointer, if_pos ((isContainer_iff hplain).mp hcontainer), hplace]
      exact gives_pure _
    have hwalk := gives_repeated (f := skipWithin buf (v.depth + l)) place
      (v.items.map fun w => 2 * w.size) fun i hi => by
        rw [List.length_map] at hi
        rw [List.getElem_map]
        have hlt := Value.depth_lt (List.getElem_mem hi)
        exact ih i hi (by omega)
    rw [List.length_map, sum_costs] at hwalk
    have hsize := v.size_eq
    refine gives_bind _ hheader ?_ (by omega : 1 + 2 * Value.sizeItems v.items ≤ 2 * v.size)
    simp only [length_items hcontainer]
    exact hwalk

theorem gives_skip (hbuf : buf.length < 2 ^ 64) (h : EncodedAt buf inline v pos e)
    (hdepth : v.depth < maxDepth) : Gives (skip buf pos 1) (2 * v.size) (some e) :=
  gives_skipWithin hbuf h hdepth

theorem string_eq (hbuf : buf.length < 2 ^ 64) (h : PayloadAt buf v p) :
    string buf ⟨v.typ, v.count, p⟩ = v.str := by
  cases v with
  | scalar typ payload =>
    have hslice := slice_eq hbuf (h.1 typ payload rfl).2
    simp only [string, Value.str, Value.typ, Value.count, hslice, Option.bind_some]
  | bool b => rfl
  | array items => rfl
  | map entries => rfl

theorem uint_eq (hbuf : buf.length < 2 ^ 64) (h : PayloadAt buf v p) :
    uint buf ⟨v.typ, v.count, p⟩ = v.uint := by
  cases v with
  | scalar typ payload =>
    have hslice := slice_eq hbuf (h.1 typ payload rfl).2
    simp only [uint, Value.uint, Value.typ, Value.count, hslice, Option.map_some]
  | bool b => rfl
  | array items => rfl
  | map entries => rfl

theorem fromUtf8_utf8 (s : Str) : fromUtf8 (utf8 s) = some s := by
  rw [fromUtf8, fromUtf8Lossy_utf8, if_pos rfl]

/-- Where the value of a key is, if the map has the key. -/
def FoundAt (buf : List UInt8) (w : Option Value) (r : Option Nat) : Prop :=
  (w = none ∧ r = none) ∨
    ∃ v pos inline e, w = some v ∧ r = some pos ∧ EncodedAt buf inline v pos e

theorem gives_findKey (hbuf : buf.length < 2 ^ 64) (key : Str) {entries : List (Str × Value)}
    (hdepth : Value.depthEntries entries < maxDepth) {place : Nat → Nat} {inline : Nat → Bool}
    (h : ∀ i (hi : i < (Value.map entries).items.length),
      EncodedAt buf (inline i) (Value.map entries).items[i] (place i) (place (i + 1))) :
    ∃ r, Gives (findKey buf key entries.length (place 0)) (2 * Value.sizeEntries entries) r ∧
      FoundAt buf (entries.lookup key) r := by
  induction entries generalizing place inline with
  | nil => exact ⟨none, gives_fail, Or.inl ⟨rfl, rfl⟩⟩
  | cons entry entries ih =>
    obtain ⟨k, w⟩ := entry
    rw [Value.depthEntries] at hdepth
    have hkey : EncodedAt buf (inline 0) (Value.text k) (place 0) (place 1) :=
      h 0 (Nat.succ_pos _)
    have hvalue : EncodedAt buf (inline 1) w (place 1) (place 2) :=
      h 1 (Nat.succ_lt_succ (Nat.succ_pos _))
    have hitems : ∀ i (hi : i < (Value.map entries).items.length),
        EncodedAt buf (inline (i + 2)) (Value.map entries).items[i] (place (i + 2))
          (place (i + 1 + 2)) :=
      fun i hi => h (i + 2) (Nat.succ_lt_succ (Nat.succ_lt_succ hi))
    obtain ⟨r, hr, hfound⟩ := ih (by omega) hitems
    obtain ⟨p, hheader, hpayload, -⟩ := gives_header hbuf hkey
    have hnot : ¬(inline 0 = true ∧ (Value.text k).isContainer = true) :=
      fun hno => Bool.false_ne_true hno.2
    have hstring : string buf ⟨(Value.text k).typ, (Value.text k).count, p⟩ = some k := by
      rw [string_eq hbuf hpayload, Value.text, Value.str, if_pos rfl, fromUtf8_utf8]
    rw [if_neg hnot] at hheader
    have hsize := w.size_pos
    have hentry : ∀ {r'}, Gives (if k = key then pure (place 1)
          else skip buf (place 1) 1 >>= findKey buf key entries.length)
          (2 * w.size + 2 * Value.sizeEntries entries) r' →
        Gives (findKey buf key ((k, w) :: entries).length (place 0))
          (2 * Value.sizeEntries ((k, w) :: entries)) r' := by
      intro r' hr'
      rw [Value.sizeEntries]
      refine gives_bind _ hheader ?_
        (by omega : 2 + (2 * w.size + 2 * Value.sizeEntries entries) ≤ _)
      simp only [hstring]
      exact gives_bind_free (gives_ofOption _) (gives_bind_free (gives_ofOption _) hr')
    by_cases hk : k = key
    · refine ⟨some (place 1), hentry ?_, Or.inr ⟨w, place 1, inline 1, place 2, ?_, rfl, hvalue⟩⟩
      · rw [if_pos hk]
        exact gives_mono (gives_pure _) (Nat.zero_le _)
      · subst hk
        exact List.lookup_cons_self
    · refine ⟨r, hentry ?_, ?_⟩
      · rw [if_neg hk]
        exact gives_bind _ (gives_skip hbuf hvalue (by omega)) hr (le_refl _)
      · have hne : (key == k) = false := beq_eq_false_iff_ne.mpr (Ne.symm hk)
        rwa [List.lookup_cons, hne]

theorem gives_mapGetPos (hbuf : buf.length < 2 ^ 64) (h : EncodedAt buf inline v pos e)
    (hdepth : v.depth ≤ maxDepth) (key : Str) :
    ∃ r, Gives (mapGetPos buf pos key) (2 * v.size) r ∧ FoundAt buf (v.get key) r := by
  obtain ⟨p, hheader, hpayload, -⟩ := gives_header hbuf h
  have hsize := v.size_pos
  by_cases hmap : v.typ = tMap
  · obtain ⟨hplain, place, inlines, rfl, hitems⟩ := hpayload
    cases v with
    | scalar typ payload =>
      have hne := (hplain typ payload rfl).1
      rw [Value.typ] at hmap
      rw [hmap] at hne
      exact absurd (by decide) hne
    | bool b => exact absurd hmap (by rw [Value.typ]; decide)
    | array items => exact absurd hmap (by rw [Value.typ]; decide)
    | map entries =>
      rw [Value.depth] at hdepth
      obtain ⟨r, hr, hfound⟩ := gives_findKey hbuf key (by omega) hitems
      refine ⟨r, ?_, hfound⟩
      rw [Value.size]
      refine gives_bind _ hheader ?_ (by omega : 2 + 2 * Value.sizeEntries entries ≤ _)
      simp only [if_pos hmap]
      exact hr
  · refine ⟨none, gives_bind 0 hheader ?_ (by omega), Or.inl ⟨?_, rfl⟩⟩
    · simp only [if_neg hmap]
      exact gives_fail
    · cases v with
      | scalar typ payload => rfl
      | bool b => rfl
      | array items => rfl
      | map entries => exact absurd rfl hmap

theorem gives_mapGet (hbuf : buf.length < 2 ^ 64) (h : EncodedAt buf inline v pos e)
    (hdepth : v.depth ≤ maxDepth) (key : Str) :
    (v.get key = none ∧ Gives (mapGet buf pos key) (2 * v.size + 2) none) ∨
      ∃ w p, v.get key = some w ∧ PayloadAt buf w p ∧
        Gives (mapGet buf pos key) (2 * v.size + 2) (some ⟨w.typ, w.count, p⟩) := by
  obtain ⟨r, hr, ⟨hw, rfl⟩ | ⟨w, vpos, inline', e', hw, rfl, hvalue⟩⟩ :=
    gives_mapGetPos hbuf h hdepth key
  · exact Or.inl ⟨hw, gives_mono (gives_bind_none _ hr) (Nat.le_add_right _ _)⟩
  · obtain ⟨p, hheader, hpayload, -⟩ := gives_header hbuf hvalue
    exact Or.inr ⟨w, p, hw, hpayload, gives_bind _ hr (gives_return hheader rfl) (le_refl _)⟩

theorem gives_mapStr (hbuf : buf.length < 2 ^ 64) (h : EncodedAt buf inline v pos e)
    (hdepth : v.depth ≤ maxDepth) (key : Str) :
    Gives (mapStr buf pos key) (2 * v.size + 2) (v.getStr key) := by
  rw [Value.getStr]
  obtain ⟨hw, hnone⟩ | ⟨w, p, hw, hpayload, hsome⟩ := gives_mapGet hbuf h hdepth key
  · rw [hw]
    exact gives_bind_none _ hnone
  · rw [hw, Option.bind_some, ← string_eq hbuf hpayload]
    exact gives_bind 0 hsome (gives_ofOption _) (le_refl _)

theorem gives_mapUint (hbuf : buf.length < 2 ^ 64) (h : EncodedAt buf inline v pos e)
    (hdepth : v.depth ≤ maxDepth) (key : Str) :
    Gives (mapUint buf pos key) (2 * v.size + 2) (v.getUint key) := by
  rw [Value.getUint]
  obtain ⟨hw, hnone⟩ | ⟨w, p, hw, hpayload, hsome⟩ := gives_mapGet hbuf h hdepth key
  · rw [hw]
    exact gives_bind_none _ hnone
  · rw [hw, Option.bind_some, ← uint_eq hbuf hpayload]
    exact gives_bind 0 hsome (gives_ofOption _) (le_refl _)

theorem foundAt_or {w w' : Option Value} {r r' : Option Nat} (h : FoundAt buf w r)
    (h' : FoundAt buf w' r') : FoundAt buf (w.or w') (r.or r') := by
  obtain ⟨rfl, rfl⟩ | ⟨v, pos, inline, e, rfl, rfl, hv⟩ := h
  · rwa [Option.none_or, Option.none_or]
  · exact Or.inr ⟨v, pos, inline, e, rfl, rfl, hv⟩

theorem gives_nested (hbuf : buf.length < 2 ^ 64) (h : EncodedAt buf inline v pos e)
    (hdepth : v.depth ≤ maxDepth) (outer key : Str) :
    Gives (mapGetPos buf pos outer >>= fun n => mapStr buf n key) (4 * v.size + 2)
      ((v.get outer).bind fun w => w.getStr key) := by
  obtain ⟨r, hr, ⟨hw, rfl⟩ | ⟨w, wpos, inline', e', hw, rfl, hvalue⟩⟩ :=
    gives_mapGetPos hbuf h hdepth outer
  · rw [hw]
    exact gives_mono (gives_bind_none _ hr) (by omega)
  · rw [hw]
    have hmem := Value.mem_items_of_get hw
    have hlt := Value.depth_lt hmem
    have hsize := Value.size_lt hmem
    exact gives_bind _ hr (gives_mapStr hbuf hvalue (by omega) key) (by omega)

theorem gives_country (hbuf : buf.length < 2 ^ 64) (h : EncodedAt buf inline v pos e)
    (hdepth : v.depth ≤ maxDepth) :
    Gives (country buf pos) (12 * v.size + 6) (some v.country) := by
  have hcode := gives_mapStr hbuf h hdepth "country_code".toList
  have hname := gives_mapStr hbuf h hdepth "country".toList
  rw [Value.country]
  refine gives_bind (10 * v.size + 4) (gives_attempt hcode) ?_ (by omega)
  cases v.getStr "country_code".toList with
  | some code => exact gives_mono (gives_return (gives_attempt hname) rfl) (by omega)
  | none =>
    obtain ⟨r, hr, hfound⟩ := gives_mapGetPos hbuf h hdepth "country".toList
    obtain ⟨r', hr', hfound'⟩ := gives_mapGetPos hbuf h hdepth "registered_country".toList
    refine gives_bind (6 * v.size + 4) (gives_attempt (gives_orElse hr hr')) ?_ (by omega)
    have hmem : ∀ c, (v.get "country".toList).or (v.get "registered_country".toList) = some c →
        c ∈ v.items := fun c hc =>
      (Option.or_eq_some_iff.mp hc).elim Value.mem_items_of_get
        fun hc => Value.mem_items_of_get hc.2
    obtain ⟨hc, hr⟩ | ⟨c, cpos, inline', e', hc, hr, hvalue⟩ := foundAt_or hfound hfound'
    · rw [hc, hr]
      exact gives_mono (gives_pure _) (Nat.zero_le _)
    · rw [hc, hr]
      have hlt := Value.depth_lt (hmem c hc)
      have hsize := Value.size_lt (hmem c hc)
      have hiso := gives_mapStr hbuf hvalue (by omega) "iso_code".toList
      have hnames := gives_nested hbuf hvalue (by omega) "names".toList "en".toList
      exact gives_bind _ (gives_attempt hiso) (gives_return (gives_attempt hnames) rfl) (by omega)

theorem gives_provider (hbuf : buf.length < 2 ^ 64) (h : EncodedAt buf inline v pos e)
    (hdepth : v.depth ≤ maxDepth) :
    Gives (provider buf pos) (8 * v.size + 8) (some v.provider) := by
  have hasn := gives_mapStr hbuf h hdepth "asn".toList
  have hasName := gives_mapStr hbuf h hdepth "as_name".toList
  have hnumber := gives_mapUint hbuf h hdepth "autonomous_system_number".toList
  have horganization := gives_mapStr hbuf h hdepth "autonomous_system_organization".toList
  rw [Value.provider]
  refine gives_bind (6 * v.size + 6) (gives_attempt hasn) ?_ (by omega)
  refine gives_bind (4 * v.size + 4) (gives_attempt hasName) ?_ (by omega)
  cases v.getStr "asn".toList with
  | some asn => exact gives_mono (gives_pure _) (Nat.zero_le _)
  | none =>
    refine gives_bind (2 * v.size + 2) (gives_attempt hnumber) ?_ (by omega)
    cases v.getStr "as_name".toList with
    | some name => exact gives_mono (gives_pure _) (Nat.zero_le _)
    | none => exact gives_return (gives_attempt horganization) rfl

/-- The fields of a record, whatever else it holds. -/
theorem gives_geoRecord (hbuf : buf.length < 2 ^ 64) (h : EncodedAt buf inline v pos e)
    (hdepth : v.depth ≤ maxDepth) :
    Gives (geoRecord buf pos) (20 * v.size + 14) (some v.geo) :=
  gives_bind _ (gives_country hbuf h hdepth) (gives_return (gives_provider hbuf h hdepth) rfl)
    (by omega)

end Values

end Ed2kServer.Filter.MaxMind
