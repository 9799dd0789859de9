import Ed2kServer.Lib.LittleEndian

namespace Ed2kServer.Lib.ByteReader

open Ed2kServer.Lib.LittleEndian

variable {ε α β : Type}

/-- A reader takes bytes off the front of a buffer; one that fails leaves it where it stopped. -/
def Reader (ε α : Type) := List UInt8 → Except ε α × List UInt8

instance instMonadReader : Monad (Reader ε) where
  pure a := fun buf => (.ok a, buf)
  bind r f := fun buf =>
    match r buf with
    | (.ok a, rest) => f a rest
    | (.error e, rest) => (.error e, rest)

def fail (e : ε) : Reader ε α := fun buf => (.error e, buf)

/-- The next `n` bytes. -/
def take (underrun : ε) (n : Nat) : Reader ε (List UInt8) := fun buf =>
  if buf.length < n then (.error underrun, buf) else (.ok (buf.take n), buf.drop n)

/-- A number of `k` bytes, the lowest first. -/
def number (underrun : ε) (k : Nat) : Reader ε Nat := do
  let bytes ← take underrun k
  return ofLeBytes bytes

/-- Up to `n` items; a failed read ends the list. -/
def upTo (item : Reader ε α) : Nat → List UInt8 → List α × List UInt8
  | 0, buf => ([], buf)
  | n + 1, buf =>
    match item buf with
    | (.ok a, rest) => (a :: (upTo item n rest).1, (upTo item n rest).2)
    | (.error _, rest) => ([], rest)

/-- In front of anything else, the reader reads exactly `bytes` and yields `a`. -/
def Reads (r : Reader ε α) (bytes : List UInt8) (a : α) : Prop :=
  ∀ rest, r (bytes ++ rest) = (.ok a, rest)

theorem reads_pure (a : α) : Reads (pure a : Reader ε α) [] a := fun _ => rfl

theorem bind_of_ok {r : Reader ε α} {buf rest : List UInt8} {a : α} (hr : r buf = (.ok a, rest))
    (f : α → Reader ε β) : (r >>= f) buf = f a rest := by
  have hbind : (r >>= f) buf =
      match r buf with
      | (.ok a, rest) => f a rest
      | (.error e, rest) => (.error e, rest) := rfl
  rw [hbind, hr]

theorem bind_of_reads {r : Reader ε α} {s : List UInt8} {a : α} (hr : Reads r s a)
    (f : α → Reader ε β) (rest : List UInt8) : (r >>= f) (s ++ rest) = f a rest :=
  bind_of_ok (hr rest) f

theorem reads_bind {r : Reader ε α} {f : α → Reader ε β} {s t : List UInt8} {a : α} {b : β}
    (hr : Reads r s a) (hf : Reads (f a) t b) : Reads (r >>= f) (s ++ t) b := by
  intro rest
  rw [List.append_assoc, bind_of_reads hr]
  exact hf rest

theorem reads_map {r : Reader ε α} {s : List UInt8} {a : α} (hr : Reads r s a) (f : α → β) :
    Reads (r >>= fun x => pure (f x)) s (f a) := by
  have h : Reads (r >>= fun x => pure (f x)) (s ++ []) (f a) := reads_bind hr (reads_pure (f a))
  rwa [List.append_nil] at h

theorem reads_take (underrun : ε) (bytes : List UInt8) :
    Reads (take underrun bytes.length) bytes bytes := by
  intro rest
  rw [take, if_neg (by rw [List.length_append]; omega), List.take_left, List.drop_left]

theorem reads_number (underrun : ε) {k n : Nat} (hn : n < 256 ^ k) :
    Reads (number underrun k) (leBytes k n) n := by
  have h := reads_map (reads_take underrun (leBytes k n)) ofLeBytes
  rwa [length_leBytes, ofLeBytes_leBytes, Nat.mod_eq_of_lt hn] at h

/-- A list of items written one after the other. -/
theorem upTo_of_reads {γ : Type} {item : Reader ε α} {write : γ → List UInt8} {value : γ → α}
    {cs : List γ} (h : ∀ c ∈ cs, Reads item (write c) (value c)) (rest : List UInt8) :
    upTo item cs.length (cs.flatMap write ++ rest) = (cs.map value, rest) := by
  induction cs with
  | nil => rfl
  | cons c cs ih =>
    obtain ⟨hc, hcs⟩ := List.forall_mem_cons.mp h
    rw [List.flatMap_cons, List.append_assoc, List.length_cons, upTo, hc]
    simp only [ih hcs, List.map_cons]

theorem length_upTo_le (item : Reader ε α) (n : Nat) (buf : List UInt8) :
    (upTo item n buf).1.length ≤ n := by
  induction n generalizing buf with
  | zero => exact Nat.le_refl 0
  | succ n ih =>
    rw [upTo]
    split
    · exact Nat.succ_le_succ (ih _)
    · exact Nat.zero_le _

theorem bind_eq_ok {r : Reader ε α} {f : α → Reader ε β} {buf rest : List UInt8} {b : β}
    (h : (r >>= f) buf = (.ok b, rest)) :
    ∃ a mid, r buf = (.ok a, mid) ∧ f a mid = (.ok b, rest) := by
  have hbind : (r >>= f) buf =
      match r buf with
      | (.ok a, rest) => f a rest
      | (.error e, rest) => (.error e, rest) := rfl
  rw [hbind] at h
  cases hr : r buf with
  | mk res mid =>
    cases res with
    | error e => rw [hr] at h; cases h
    | ok a => rw [hr] at h; exact ⟨a, mid, rfl, h⟩

theorem pure_eq_ok {a b : α} {buf rest : List UInt8}
    (h : (pure a : Reader ε α) buf = (.ok b, rest)) : a = b ∧ buf = rest := by
  cases h
  exact ⟨rfl, rfl⟩

theorem take_eq_ok {underrun : ε} {n : Nat} {buf bytes rest : List UInt8}
    (h : take underrun n buf = (.ok bytes, rest)) : buf = bytes ++ rest ∧ bytes.length = n := by
  rw [take] at h
  split at h
  · cases h
  · rename_i hn
    cases h
    exact ⟨(List.take_append_drop n buf).symm, List.length_take_of_le (not_lt.mp hn)⟩

theorem number_eq_ok {underrun : ε} {k n : Nat} {buf rest : List UInt8}
    (h : number underrun k buf = (.ok n, rest)) : buf = leBytes k n ++ rest ∧ n < 256 ^ k := by
  obtain ⟨bytes, mid, ht, hp⟩ := bind_eq_ok h
  obtain ⟨rfl, rfl⟩ := pure_eq_ok hp
  obtain ⟨rfl, rfl⟩ := take_eq_ok ht
  exact ⟨by rw [leBytes_ofLeBytes], ofLeBytes_lt bytes⟩

/-- When no item fails, the buffer starts with that many of them. -/
theorem upTo_eq_full {γ : Type} {item : Reader ε α} {write : γ → List UInt8}
    (h : ∀ buf a rest, item buf = (.ok a, rest) → ∃ c, buf = write c ++ rest) {n : Nat}
    {buf : List UInt8} (hn : (upTo item n buf).1.length = n) :
    ∃ cs : List γ, cs.length = n ∧ buf = cs.flatMap write ++ (upTo item n buf).2 := by
  induction n generalizing buf with
  | zero => exact ⟨[], rfl, rfl⟩
  | succ n ih =>
    rw [upTo] at hn ⊢
    cases hi : item buf with
    | mk res rest =>
      cases res with
      | error e => rw [hi] at hn; cases hn
      | ok a =>
        rw [hi] at hn
        obtain ⟨c, rfl⟩ := h buf a rest hi
        obtain ⟨cs, hl, hrest⟩ := ih (Nat.succ.inj hn)
        refine ⟨c :: cs, by rw [List.length_cons, hl], ?_⟩
        rw [List.flatMap_cons, List.append_assoc, ← hrest]

end Ed2kServer.Lib.ByteReader
