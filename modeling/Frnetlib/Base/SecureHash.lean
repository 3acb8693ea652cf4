/-
  Frnetlib.Base.SecureHash — the standard's SHA-1 (FIPS 180).

  A message is padded with a one bit, zeros and its length in bits to whole blocks of 64
  bytes (`pad`). A block's 16 words, big-endian, are extended to the 80 words
  of its schedule (`schedule_input`, `schedule_later`), and each of these is mixed in by one
  `round`; the state after 80 rounds is added to the one before. The digest is the state
  after the last block, big-endian.
-/

import Frnetlib.Base.BigEndian
import Frnetlib.Base.Blocks
import Mathlib.Data.List.GetD

namespace Frnetlib.Base.SecureHash

def rotl (n x : UInt32) : UInt32 := x <<< n ||| x >>> (32 - n)

/-! ## The schedule of a block -/

def schedulePrefix (m : Fin 16 → UInt32) : Nat → List UInt32
  | 0 => []
  | t + 1 =>
    let w := schedulePrefix m t
    let next :=
      if ht : t < 16 then m ⟨t, ht⟩
      else rotl 1 (w.getD (t - 3) 0 ^^^ w.getD (t - 8) 0 ^^^ w.getD (t - 14) 0 ^^^ w.getD (t - 16) 0)
    w ++ [next]

def schedule (m : Fin 16 → UInt32) (t : Nat) : UInt32 := (schedulePrefix m (t + 1)).getD t 0

theorem schedulePrefix_length (m : Fin 16 → UInt32) (n : Nat) : (schedulePrefix m n).length = n := by
  induction n with
  | zero => rfl
  | succ n ih => simp only [schedulePrefix, List.length_append, List.length_singleton, ih]

/-- A word once computed stays. -/
theorem schedulePrefix_getD (m : Fin 16 → UInt32) {t n : Nat} (h : t < n) :
    (schedulePrefix m n).getD t 0 = schedule m t := by
  induction n with
  | zero => cases h
  | succ n ih =>
    rcases Nat.lt_succ_iff_lt_or_eq.mp h with hlt | rfl
    · have hlength := schedulePrefix_length m n
      rw [schedulePrefix, List.getD_append _ _ _ _ (by omega), ih hlt]
    · rfl

theorem schedule_last (w : List UInt32) (next : UInt32) (t : Nat) (h : w.length = t) :
    (w ++ [next]).getD t 0 = next := by
  rw [List.getD_append_right _ _ _ _ (by omega), h, Nat.sub_self, List.getD_cons_zero]

theorem schedule_input (m : Fin 16 → UInt32) {t : Nat} (h : t < 16) : schedule m t = m ⟨t, h⟩ := by
  rw [schedule, schedulePrefix, schedule_last _ _ t (schedulePrefix_length m t), dif_pos h]

theorem schedule_later (m : Fin 16 → UInt32) {t : Nat} (h : 16 ≤ t) :
    schedule m t = rotl 1 (schedule m (t - 3) ^^^ schedule m (t - 8) ^^^ schedule m (t - 14) ^^^ schedule m (t - 16)) := by
  rw [schedule, schedulePrefix, schedule_last _ _ t (schedulePrefix_length m t), dif_neg (by omega),
    schedulePrefix_getD m (by omega), schedulePrefix_getD m (by omega), schedulePrefix_getD m (by omega),
    schedulePrefix_getD m (by omega)]

/-! ## The rounds -/

@[ext] structure State where
  a : UInt32
  b : UInt32
  c : UInt32
  d : UInt32
  e : UInt32
  deriving DecidableEq

def ch (x y z : UInt32) : UInt32 := (x &&& y) ^^^ (~~~x &&& z)
def parity (x y z : UInt32) : UInt32 := x ^^^ y ^^^ z
def maj (x y z : UInt32) : UInt32 := (x &&& y) ^^^ (x &&& z) ^^^ (y &&& z)

def mix (t : Nat) : UInt32 → UInt32 → UInt32 → UInt32 :=
  if t < 20 then ch else if t < 40 then parity else if t < 60 then maj else parity

def constant (t : Nat) : UInt32 :=
  if t < 20 then 0x5a827999 else if t < 40 then 0x6ed9eba1 else if t < 60 then 0x8f1bbcdc else 0xca62c1d6

def round (w : Nat → UInt32) (t : Nat) (s : State) : State :=
  ⟨rotl 5 s.a + mix t s.b s.c s.d + s.e + constant t + w t, s.a, rotl 30 s.b, s.c, s.d⟩

def rounds (w : Nat → UInt32) : Nat → State → State
  | 0, s => s
  | t + 1, s => round w t (rounds w t s)

def add (h s : State) : State := ⟨h.a + s.a, h.b + s.b, h.c + s.c, h.d + s.d, h.e + s.e⟩

def compress (h : State) (m : Fin 16 → UInt32) : State := add h (rounds (schedule m) 80 h)

/-! ## A message -/

/-- The 16 words of a block. -/
def words (block : Bytes) (i : Fin 16) : UInt32 := UInt32.ofNat (ofBe ((block.drop (4 * i)).take 4))

def initial : State := ⟨0x67452301, 0xefcdab89, 0x98badcfe, 0x10325476, 0xc3d2e1f0⟩

def zeros (length : Nat) : Nat := (119 - length % 64) % 64

def pad (message : Bytes) : Bytes :=
  message ++ 0x80 :: List.replicate (zeros message.length) 0 ++ be 8 (8 * message.length)

def output (s : State) : Bytes := be 4 s.a.toNat ++ be 4 s.b.toNat ++ be 4 s.c.toNat ++ be 4 s.d.toNat ++ be 4 s.e.toNat

def sha1 (message : Bytes) : Bytes := output (absorb (fun h block => compress h (words block)) 64 initial (pad message))

-- the standard's first example, "abc"
example : sha1 [97, 98, 99] =
    [169, 153, 62, 54, 71, 6, 129, 106, 186, 62, 37, 113, 120, 80, 194, 108, 156, 208, 216, 157] := by decide +kernel

theorem output_length (s : State) : (output s).length = 20 := by
  simp only [output, List.length_append, be_length]

end Frnetlib.Base.SecureHash
