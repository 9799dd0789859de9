import Ed2kServer.Basic
import Ed2kServer.Lib.Xor

namespace Ed2kServer.Proto.Obfuscation

open Ed2kServer.Lib.Xor

/-- An MD5 digest; every cipher of the server is keyed with one. -/
abbrev Digest := Vector UInt8 16

structure Rc4 where
  state : Vector UInt8 256
  x : UInt8
  y : UInt8

def swap (s : Vector UInt8 256) (i j : UInt8) : Vector UInt8 256 :=
  s.swap i.toNat j.toNat i.toNat_lt j.toNat_lt

def byteAt (s : Vector UInt8 256) (i : UInt8) : UInt8 := s.get ⟨i.toNat, i.toNat_lt⟩

/-- One round of the key schedule, the running index taken modulo 256. -/
def mix (key : Digest) (p : Vector UInt8 256 × UInt8) (i : Fin 256) : Vector UInt8 256 × UInt8 :=
  let j := p.2 + p.1.get i + key.get (Fin.ofNat 16 i.val)
  (swap p.1 (UInt8.ofFin i) j, j)

/-- Advance the state by one byte of the key stream. -/
def Rc4.advance (c : Rc4) : Rc4 :=
  let x := c.x + 1
  let y := c.y + byteAt c.state x
  ⟨swap c.state x y, x, y⟩

def Rc4.skip (c : Rc4) : Nat → Rc4
  | 0 => c
  | n + 1 => c.advance.skip n

def Rc4.new (key : Digest) (drop1024 : Bool) : Rc4 :=
  let s := ((List.finRange 256).foldl (mix key) (Vector.ofFn (fun i => UInt8.ofFin i), 0)).1
  let c : Rc4 := ⟨s, 0, 0⟩
  if drop1024 then c.skip 1024 else c

/-- The byte of the key stream that the state stands on. -/
def Rc4.out (c : Rc4) : UInt8 := byteAt c.state (byteAt c.state c.x + byteAt c.state c.y)

def Rc4.apply (c : Rc4) : List UInt8 → List UInt8 × Rc4
  | [] => ([], c)
  | byte :: data =>
    let rest := c.advance.apply data
    ((byte ^^^ c.advance.out) :: rest.1, rest.2)

/-- The next `n` bytes of the key stream. -/
def Rc4.keystream (c : Rc4) : Nat → List UInt8
  | 0 => []
  | n + 1 => c.advance.out :: c.advance.keystream n

@[simp] theorem length_keystream (c : Rc4) (n : Nat) : (c.keystream n).length = n := by
  induction n generalizing c with
  | zero => rfl
  | succ n ih => rw [Rc4.keystream, List.length_cons, ih]

theorem apply_eq (c : Rc4) (data : List UInt8) :
    (c.apply data).1 = xorBytes data (c.keystream data.length) := by
  induction data generalizing c with
  | nil => rfl
  | cons byte data ih =>
    simp only [Rc4.apply, List.length_cons, Rc4.keystream, xorBytes, List.zipWith_cons_cons, ih]

@[simp] theorem length_apply (c : Rc4) (data : List UInt8) :
    (c.apply data).1.length = data.length := by
  rw [apply_eq, length_xorBytes (length_keystream c data.length).symm]

theorem apply_snd (c : Rc4) (data : List UInt8) : (c.apply data).2 = c.skip data.length := by
  induction data generalizing c with
  | nil => rfl
  | cons byte data ih =>
    rw [Rc4.apply, List.length_cons, Rc4.skip]
    exact ih c.advance

theorem keystream_add (c : Rc4) (m n : Nat) :
    c.keystream (m + n) = c.keystream m ++ (c.skip m).keystream n := by
  induction m generalizing c with
  | zero => rw [Nat.zero_add]; rfl
  | succ m ih =>
    rw [Nat.succ_add, Rc4.keystream, ih, Rc4.keystream, Rc4.skip]
    rfl

theorem skip_add (c : Rc4) (m n : Nat) : c.skip (m + n) = (c.skip m).skip n := by
  induction m generalizing c with
  | zero => rw [Nat.zero_add]; rfl
  | succ m ih => rw [Nat.succ_add, Rc4.skip, Rc4.skip, ih]

/-- The start of a text is enciphered as by itself, and the rest where the start has ended. -/
theorem apply_append (c : Rc4) (data data' : List UInt8) :
    (c.apply (data ++ data')).1 = (c.apply data).1 ++ ((c.skip data.length).apply data').1 := by
  induction data generalizing c with
  | nil => rfl
  | cons byte data ih =>
    rw [List.cons_append, Rc4.apply, Rc4.apply, List.length_cons, Rc4.skip]
    exact congrArg (List.cons _) (ih c.advance)

/-- The first index of the state counts the bytes used. -/
theorem x_skip (c : Rc4) (n : Nat) : (c.skip n).x = c.x + UInt8.ofNat n := by
  induction n generalizing c with
  | zero => simp [Rc4.skip]
  | succ n ih =>
    rw [Rc4.skip, ih, Rc4.advance, UInt8.ofNat_add, UInt8.add_assoc, UInt8.add_comm 1]
    rfl

/-- A cipher undoes what a cipher in the same state has done. -/
theorem apply_apply (c : Rc4) (data : List UInt8) : (c.apply (c.apply data).1).1 = data := by
  rw [apply_eq, length_apply, apply_eq, xorBytes_self (length_keystream c data.length).symm]

end Ed2kServer.Proto.Obfuscation
