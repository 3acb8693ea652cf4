/-
  Frnetlib.WebSocket.Sha1Digest — `fr::Sha1` computes the standard's digest.

  Before round `t` the working variable that plays the k-th role is `var (4 * t + k)`, and
  the block holds the last 16 words of the schedule, word `j` at `j % 16` (`Tracks`). One
  call keeps this (`operation_tracks`), so 80 of them compress (`transform_compress`).
  An object that was fed `s` holds the state after the whole blocks of `s` and what is
  left behind them (`Fed`), however `s` was cut; `final` pads and hashes the rest
  (`digest_of_pieces`).
-/

import Frnetlib.Base.SecureHash
import Frnetlib.WebSocket.Sha1

namespace Frnetlib.Sha1

open Base

/-! ## The functions of the rounds -/

theorem ch_eq (w x y : UInt32) : (w &&& (x ^^^ y)) ^^^ y = SecureHash.ch w x y := by
  apply UInt32.toBitVec_inj.mp
  apply BitVec.eq_of_getLsbD_eq
  intro i hi
  simp only [SecureHash.ch, UInt32.toBitVec_xor, UInt32.toBitVec_and, UInt32.toBitVec_not, BitVec.getLsbD_xor,
    BitVec.getLsbD_and, BitVec.getLsbD_not, hi, decide_true, Bool.true_and]
  cases w.toBitVec.getLsbD i <;> simp

theorem maj_eq (w x y : UInt32) : (w ||| x) &&& y ||| w &&& x = SecureHash.maj w x y := by
  apply UInt32.toBitVec_inj.mp
  apply BitVec.eq_of_getLsbD_eq
  intro i _
  simp only [SecureHash.maj, UInt32.toBitVec_xor, UInt32.toBitVec_and, UInt32.toBitVec_or, BitVec.getLsbD_xor,
    BitVec.getLsbD_and, BitVec.getLsbD_or]
  cases w.toBitVec.getLsbD i <;> cases x.toBitVec.getLsbD i <;> simp

/-! ## The roles of the variables -/

def var (k : Nat) : Var :=
  match k % 5 with
  | 0 => .a
  | 1 => .b
  | 2 => .c
  | 3 => .d
  | _ => .e

theorem var_add_five (k : Nat) : var (k + 5) = var k := by
  unfold var
  rw [Nat.add_mod_right]

theorem var_injective {j k : Nat} (h : var j = var k) : j % 5 = k % 5 := by
  have hj : j % 5 < 5 := Nat.mod_lt _ (by decide)
  have hk : k % 5 < 5 := Nat.mod_lt _ (by decide)
  unfold var at h
  generalize j % 5 = j at *
  generalize k % 5 = k at *
  have key : ∀ j < 5, ∀ k < 5, var j = var k → j = k := by decide
  exact key j hj k hk (by unfold var; rwa [Nat.mod_eq_of_lt hj, Nat.mod_eq_of_lt hk])

theorem var_ne {j k : Nat} (h : j % 5 ≠ k % 5) : var j ≠ var k := mt var_injective h

/-- The word of the block that round `t` uses. -/
def place (t : Nat) : Fin 16 := ⟨t % 16, Nat.mod_lt t (by decide)⟩

theorem place_val (t : Nat) : (place t).val = t % 16 := rfl

/-- The call of round `t`. -/
def operationAt (t : Nat) : Work → Work :=
  let op := if t < 16 then R0 else if t < 20 then R1 else if t < 40 then R2 else if t < 60 then R3 else R4
  op (var (4 * t)) (var (4 * t + 1)) (var (4 * t + 2)) (var (4 * t + 3)) (var (4 * t + 4)) (place t)

theorem operations_eq : operations = (List.range 80).map operationAt := rfl

/-- The words of the block when round `t` adds one of them. -/
def refilled (t : Nat) (s : Work) : Work := if t < 16 then s else refill (place t) s

theorem operationAt_eq {t : Nat} (s : Work) :
    operationAt t s =
      operation (SecureHash.mix t) (SecureHash.constant t) (var (4 * t)) (var (4 * t + 1)) (var (4 * t + 2))
        (var (4 * t + 3)) (var (4 * t + 4)) (place t) (refilled t s) := by
  have hch : (fun w x y : UInt32 => (w &&& (x ^^^ y)) ^^^ y) = SecureHash.ch := funext fun w => funext fun x => funext (ch_eq w x)
  have hmaj : (fun w x y : UInt32 => (w ||| x) &&& y ||| w &&& x) = SecureHash.maj :=
    funext fun w => funext fun x => funext (maj_eq w x)
  have hparity : (fun w x y : UInt32 => w ^^^ x ^^^ y) = SecureHash.parity := rfl
  unfold operationAt refilled SecureHash.mix SecureHash.constant
  by_cases h16 : t < 16
  · simp only [if_pos h16, if_pos (show t < 20 by omega), R0, hch]
  · by_cases h20 : t < 20
    · simp only [if_neg h16, if_pos h20, R1, hch]
    · by_cases h40 : t < 40
      · simp only [if_neg h16, if_neg h20, if_pos h40, R2, hparity]
      · by_cases h60 : t < 60
        · simp only [if_neg h16, if_neg h20, if_neg h40, if_pos h60, R3, hmaj]
        · simp only [if_neg h16, if_neg h20, if_neg h40, if_neg h60, R4, hparity]

/-! ## One round -/

/-- Before round `t`, with `h` the standard's working variables. -/
structure Tracks (m : Block) (t : Nat) (h : SecureHash.State) (s : Work) : Prop where
  a : s.vars (var (4 * t)) = h.a
  b : s.vars (var (4 * t + 1)) = h.b
  c : s.vars (var (4 * t + 2)) = h.c
  d : s.vars (var (4 * t + 3)) = h.d
  e : s.vars (var (4 * t + 4)) = h.e
  words : ∀ j, j < max t 16 → t ≤ j + 16 → s.block (place j) = SecureHash.schedule m j

variable {m : Block} {t : Nat} {h : SecureHash.State} {s : Work}

theorem and_fifteen (i : Fin 16) : i &&& 15 = i := by
  revert i
  decide

/-- Sixteen rounds back is the same place. -/
theorem place_back {t back : Nat} (hback : back ≤ t) (i : Fin 16) (hi : (i.val + back) % 16 = 0) :
    (place t + i) &&& 15 = place (t - back) := by
  rw [and_fifteen]
  apply Fin.ext
  simp only [Fin.val_add, place_val]
  omega

theorem Tracks.blk_eq (ht : Tracks m t h s) (hlate : 16 ≤ t) : blk s.block (place t) = SecureHash.schedule m t := by
  have hself : place t = place (t - 16) := by
    apply Fin.ext
    simp only [place_val]
    omega
  rw [blk, place_back (show 3 ≤ t by omega) 13 rfl, place_back (show 8 ≤ t by omega) 8 rfl,
    place_back (show 14 ≤ t by omega) 2 rfl, ht.words _ (by omega) (by omega), ht.words _ (by omega) (by omega),
    ht.words _ (by omega) (by omega), hself, ht.words _ (by omega) (by omega), SecureHash.schedule_later m hlate]
  rfl

/-- After `block[i] = blk(block, i)`, where there is one. -/
theorem Tracks.refilled (ht : Tracks m t h s) :
    (Sha1.refilled t s).vars = s.vars ∧
      ∀ j, j < max (t + 1) 16 → t + 1 ≤ j + 16 → (Sha1.refilled t s).block (place j) = SecureHash.schedule m j := by
  unfold Sha1.refilled
  by_cases hearly : t < 16
  · rw [if_pos hearly]
    exact ⟨rfl, fun j hj hlow => ht.words j (by omega) (by omega)⟩
  · rw [if_neg hearly]
    refine ⟨rfl, fun j hj hlow => ?_⟩
    by_cases hlast : j = t
    · subst hlast
      exact (Function.update_self _ _ _).trans (ht.blk_eq (by omega))
    · have hplace : place j ≠ place t := by
        intro heq
        have hval := congrArg Fin.val heq
        simp only [place_val] at hval
        omega
      exact (Function.update_of_ne hplace _ _).trans (ht.words j (by omega) (by omega))

section Operation

variable (f : UInt32 → UInt32 → UInt32 → UInt32) (constant : UInt32) {v w x y z : Var} (i : Fin 16)

theorem operation_sum (hwz : z ≠ w) :
    (operation f constant v w x y z i s).vars z =
      s.vars z + (f (s.vars w) (s.vars x) (s.vars y) + s.block i + constant + rol (s.vars v) 5) := by
  simp only [operation, Function.update_of_ne hwz, Function.update_self]

theorem operation_rotated (hwz : z ≠ w) : (operation f constant v w x y z i s).vars w = rol (s.vars w) 30 := by
  simp only [operation, Function.update_self, Function.update_of_ne hwz.symm]

theorem operation_other {u : Var} (hw : u ≠ w) (hz : u ≠ z) : (operation f constant v w x y z i s).vars u = s.vars u := by
  simp only [operation, Function.update_of_ne hw, Function.update_of_ne hz]

end Operation

theorem operation_tracks (ht : Tracks m t h s) :
    Tracks m (t + 1) (SecureHash.round (SecureHash.schedule m) t h) (operationAt t s) := by
  obtain ⟨hvars, hwords⟩ := ht.refilled
  have hword := hwords t (by omega) (by omega)
  -- the k-th role goes to the variable that had the one before
  have hrole : ∀ k, var (4 * (t + 1) + (k + 1)) = var (4 * t + k) := by
    intro k
    rw [show 4 * (t + 1) + (k + 1) = 4 * t + k + 5 by omega, var_add_five]
  have hne : ∀ {j k}, j % 5 ≠ k % 5 → var (4 * t + j) ≠ var (4 * t + k) := fun hjk => var_ne (by omega)
  have hwz : var (4 * t + 4) ≠ var (4 * t + 1) := hne (by decide)
  rw [operationAt_eq]
  refine ⟨?_, ?_, ?_, ?_, ?_, hwords⟩
  · refine (operation_sum _ _ _ hwz).trans ?_
    rw [hvars, hword, ht.a, ht.b, ht.c, ht.d, ht.e]
    change _ = SecureHash.rotl 5 h.a + SecureHash.mix t h.b h.c h.d + h.e + SecureHash.constant t + SecureHash.schedule m t
    change h.e + (SecureHash.mix t h.b h.c h.d + SecureHash.schedule m t + SecureHash.constant t + SecureHash.rotl 5 h.a) = _
    ac_rfl
  · rw [hrole 0, operation_other _ _ _ (hne (by decide)) (hne (by decide)), hvars]
    exact ht.a
  · rw [hrole 1, operation_rotated _ _ _ hwz, hvars, ht.b]
    rfl
  · rw [hrole 2, operation_other _ _ _ (hne (by decide)) (hne (by decide)), hvars, ht.c]
    rfl
  · rw [hrole 3, operation_other _ _ _ (hne (by decide)) (hne (by decide)), hvars, ht.d]
    rfl

/-! ## A block -/

/-- The digest as the standard's state. -/
def state (digest : Words) : SecureHash.State :=
  ⟨working digest .a, working digest .b, working digest .c, working digest .d, working digest .e⟩

theorem rounds_track (m : Block) (h : SecureHash.State) {s : Work} (hs : Tracks m 0 h s) (n : Nat) :
    Tracks m n (SecureHash.rounds (SecureHash.schedule m) n h)
      (((List.range n).map operationAt).foldl (fun s call => call s) s) := by
  induction n with
  | zero => exact hs
  | succ n ih =>
    rw [List.range_succ, List.map_append, List.foldl_append]
    exact operation_tracks ih

/-- `transform` is the standard's compression of the block. -/
theorem transform_compress (digest : Words) (block : Block) :
    state (transform digest block) = SecureHash.compress (state digest) block := by
  have hstart : Tracks block 0 (state digest) ⟨block, working digest⟩ := by
    refine ⟨rfl, rfl, rfl, rfl, rfl, fun j hj _ => ?_⟩
    have hj16 : j < 16 := by omega
    rw [SecureHash.schedule_input block hj16]
    refine congrArg block (Fin.ext ?_)
    simp only [place_val]
    omega
  have hend := rounds_track block (state digest) hstart 80
  rw [← operations_eq] at hend
  unfold SecureHash.compress
  generalize SecureHash.rounds (SecureHash.schedule block) 80 (state digest) = r at hend ⊢
  refine SecureHash.State.ext ?_ ?_ ?_ ?_ ?_
  · exact congrArg (digest 0 + ·) hend.a
  · exact congrArg (digest 1 + ·) hend.b
  · exact congrArg (digest 2 + ·) hend.c
  · exact congrArg (digest 3 + ·) hend.d
  · exact congrArg (digest 4 + ·) hend.e

/-! ## Words of four bytes -/

theorem word_eq (b₀ b₁ b₂ b₃ : UInt8) :
    b₃.toUInt32 ||| b₂.toUInt32 <<< 8 ||| b₁.toUInt32 <<< 16 ||| b₀.toUInt32 <<< 24 = UInt32.ofNat (ofBe [b₀, b₁, b₂, b₃]) := by
  have h₀ := b₀.toNat_lt
  have h₁ := b₁.toNat_lt
  have h₂ := b₂.toNat_lt
  have h₃ := b₃.toNat_lt
  have hor : ∀ {low n : Nat} (high : Nat), low < 2 ^ n → low ||| high <<< n = high <<< n + low := fun high hlow =>
    (Nat.or_comm _ _).trans (Nat.shiftLeft_add_eq_or_of_lt hlow high).symm
  have hmid : b₂.toNat <<< 8 + b₃.toNat < 2 ^ 16 := by omega
  have hhigh : b₁.toNat <<< 16 + (b₂.toNat <<< 8 + b₃.toNat) < 2 ^ 24 := by omega
  apply UInt32.toNat_inj.mp
  simp only [UInt32.toNat_or, UInt32.toNat_shiftLeft, UInt8.toNat_toUInt32, UInt32.toNat_ofNat', ofBe, List.length_cons,
    List.length_nil, UInt32.reduceToNat, Nat.reduceMod]
  rw [Nat.mod_eq_of_lt (by omega : b₂.toNat <<< 8 < 2 ^ 32), Nat.mod_eq_of_lt (by omega : b₁.toNat <<< 16 < 2 ^ 32),
    Nat.mod_eq_of_lt (by omega : b₀.toNat <<< 24 < 2 ^ 32), hor _ h₃, hor _ hmid,
    hor _ hhigh]
  omega

theorem bufferToBlock_eq {buffer : Bytes} (h : buffer.length = 64) : bufferToBlock buffer = SecureHash.words buffer := by
  funext i
  have hi := i.isLt
  have hfour : (buffer.drop (4 * i)).take 4 =
      [buffer.getD (4 * i + 0) 0, buffer.getD (4 * i + 1) 0, buffer.getD (4 * i + 2) 0, buffer.getD (4 * i + 3) 0] := by
    rw [List.drop_eq_getElem_cons (by omega), List.drop_eq_getElem_cons (by omega), List.drop_eq_getElem_cons (by omega),
      List.drop_eq_getElem_cons (by omega)]
    simp only [List.take_succ_cons, List.take_zero]
    rw [List.getD_eq_getElem _ _ (by omega), List.getD_eq_getElem _ _ (by omega), List.getD_eq_getElem _ _ (by omega),
      List.getD_eq_getElem _ _ (by omega)]
    rfl
  rw [bufferToBlock, SecureHash.words, hfour, word_eq]

theorem stored_eq (a : UInt32) : stored a = (be 4 a.toNat).reverse := by
  have hbyte : ∀ k < 4, (a >>> UInt32.ofNat (8 * k)).toUInt8 = UInt8.ofNat (a.toNat / 256 ^ k) := by
    intro k hk
    apply UInt8.toNat_inj.mp
    rw [UInt32.toNat_toUInt8, UInt32.toNat_shiftRight, UInt8.toNat_ofNat', UInt32.toNat_ofNat',
      Nat.mod_eq_of_lt (by omega : 8 * k < 2 ^ 32), Nat.mod_eq_of_lt (by omega : 8 * k < 32), Nat.shiftRight_eq_div_pow,
      Nat.pow_mul]
  have h0 := hbyte 0 (by decide)
  have h1 := hbyte 1 (by decide)
  have h2 := hbyte 2 (by decide)
  have h3 := hbyte 3 (by decide)
  simp only [be, List.reverse_cons, List.reverse_nil, List.nil_append, List.cons_append, ← h0, ← h1, ← h2, ← h3]
  simp [stored]

theorem ntohl_eq (a : UInt32) : ntohl a = UInt32.ofNat (ofBe (stored a)) := word_eq _ _ _ _

/-- On a little-endian host a word's bytes are in memory in network order after `ntohl`. -/
theorem stored_ntohl (a : UInt32) : stored (ntohl a) = be 4 a.toNat := by
  have hlength : (stored a).length = 4 := rfl
  have hlt := ofBe_lt (stored a)
  rw [hlength] at hlt
  rw [stored_eq, ntohl_eq, UInt32.toNat_ofNat', Nat.mod_eq_of_lt (by omega : ofBe (stored a) < 2 ^ 32),
    be_ofBe_of_length hlength, stored_eq, List.reverse_reverse]

/-! ## Feeding an object -/

/-- The standard's compression of a block of bytes. -/
abbrev step (h : SecureHash.State) (block : Bytes) : SecureHash.State := SecureHash.compress h (SecureHash.words block)

/-- What is not yet absorbed goes before what comes next. -/
theorem absorbed_then (s t : Bytes) :
    absorb step 64 (absorb step 64 SecureHash.initial s) (unabsorbed 64 s ++ t) = absorb step 64 SecureHash.initial (s ++ t) ∧
      unabsorbed 64 (unabsorbed 64 s ++ t) = unabsorbed 64 (s ++ t) := absorb_unabsorbed (by decide) SecureHash.initial s t

/-- The object after the bytes of `s`. -/
structure Fed (s : Bytes) (ctx : Sha1) : Prop where
  digest : state ctx.digest = absorb step 64 SecureHash.initial s
  buffer : ctx.buffer = unabsorbed 64 s
  transforms : ctx.transforms = UInt64.ofNat (s.length / 64)

theorem fed_new : Fed [] new := ⟨rfl, rfl, rfl⟩

theorem update_short {ctx : Sha1} {is : Bytes} (h : (ctx.buffer ++ is).length < 64) :
    (ctx.update is).digest = ctx.digest ∧ (ctx.update is).buffer = ctx.buffer ++ is ∧
      (ctx.update is).transforms = ctx.transforms := by
  have hall : is.take (blockBytes - ctx.buffer.length) = is := by
    refine List.take_of_length_le ?_
    simp only [List.length_append, blockBytes, blockInts] at h ⊢
    omega
  have hshort : (ctx.buffer ++ is).length < blockBytes := h
  rw [update]
  simp only [hall]
  rw [dif_pos hshort]
  exact ⟨rfl, rfl, rfl⟩

/-- A whole block is hashed at once. -/
theorem update_block {ctx : Sha1} {b is : Bytes} (h : (ctx.buffer ++ b).length = 64) :
    ctx.update (b ++ is) =
      (⟨transform ctx.digest (bufferToBlock (ctx.buffer ++ b)), [], ctx.transforms + 1, by decide⟩ : Sha1).update is := by
  have hlength : b.length = blockBytes - ctx.buffer.length := by
    simp only [List.length_append, blockBytes, blockInts] at h ⊢
    omega
  rw [update]
  simp only [List.take_left' hlength]
  rw [dif_neg (by rw [h]; decide), List.drop_left]

theorem unabsorbed_one {b : Bytes} (hb : b.length = 64) : unabsorbed 64 b = [] := by
  rw [unabsorbed, hb]
  exact List.drop_of_length_le (Nat.le_of_eq hb)

theorem Fed.length {s : Bytes} {ctx : Sha1} (h : Fed s ctx) : ctx.buffer.length = s.length % 64 := by
  rw [h.buffer, unabsorbed, List.length_drop]
  omega

theorem Fed.block {s : Bytes} {ctx : Sha1} (h : Fed s ctx) {b : Bytes} (hb : (ctx.buffer ++ b).length = 64) :
    Fed (s ++ b) ⟨transform ctx.digest (bufferToBlock (ctx.buffer ++ b)), [], ctx.transforms + 1, by decide⟩ := by
  obtain ⟨habsorb, hleft⟩ := absorbed_then s b
  have hlength := h.length
  rw [← h.buffer] at habsorb hleft
  constructor
  · rw [transform_compress, bufferToBlock_eq hb, h.digest, ← habsorb, absorb_one (by decide) _ hb]
  · rw [← hleft, unabsorbed_one hb]
  · have hcount : (s ++ b).length / 64 = s.length / 64 + 1 := by
      simp only [List.length_append] at hb ⊢
      omega
    rw [hcount, UInt64.ofNat_add, ← h.transforms]
    rfl

theorem update_fed {s : Bytes} {ctx : Sha1} (h : Fed s ctx) (is : Bytes) : Fed (s ++ is) (ctx.update is) := by
  generalize hm : is.length = m
  induction m using Nat.strongRecOn generalizing s ctx is with
  | ind m ih =>
    have hlength := h.length
    by_cases hshort : (ctx.buffer ++ is).length < 64
    · obtain ⟨hdigest, hbuffer, htransforms⟩ := update_short hshort
      obtain ⟨habsorb, hleft⟩ := absorbed_then s is
      rw [← h.buffer] at habsorb hleft
      constructor
      · rw [hdigest, h.digest, ← habsorb, absorb_short _ hshort]
      · rw [hbuffer, ← hleft, unabsorbed_short hshort]
      · have hcount : (s ++ is).length / 64 = s.length / 64 := by
          simp only [List.length_append] at hshort ⊢
          omega
        rw [htransforms, hcount, h.transforms]
    · -- up to the end of the block, and then the rest
      have hb : (ctx.buffer ++ is.take (64 - ctx.buffer.length)).length = 64 := by
        simp only [List.length_append, List.length_take] at hshort ⊢
        omega
      have hlt : (is.drop (64 - ctx.buffer.length)).length < m := by
        simp only [List.length_append, List.length_drop] at hshort ⊢
        omega
      have hrest := ih _ hlt (h.block hb) (is.drop (64 - ctx.buffer.length)) rfl
      rwa [← update_block hb, List.append_assoc, List.take_append_drop] at hrest

/-! ## The length in the last block -/

theorem ofNat_ofBe_be (n : Nat) : UInt32.ofNat (ofBe (be 4 n)) = UInt32.ofNat n := by
  rw [← be_mod 4 4 n (Nat.le_refl _), ofBe_be (Nat.mod_lt _ (by decide))]
  apply UInt32.toNat_inj.mp
  simp only [UInt32.toNat_ofNat']
  omega

theorem be_eight (n : Nat) : be 8 n = be 4 (n / 2 ^ 32) ++ be 4 n := by
  simp only [be, Nat.div_div_eq_div_mul, List.cons_append, List.nil_append, Nat.reducePow, Nat.reduceMul]

/-- The words before the last two do not depend on what the last two are. -/
theorem words_front {front : Bytes} (hfront : front.length = 56) (back : Bytes) {i : Fin 16} (hi : i.val < 14) :
    SecureHash.words (front ++ back) i = UInt32.ofNat (ofBe ((front.drop (4 * i)).take 4)) := by
  rw [SecureHash.words, List.drop_append_of_le_length (by omega),
    List.take_append_of_le_length (by rw [List.length_drop]; omega)]

theorem words_length {front : Bytes} (hfront : front.length = 56) (back : Bytes) (n : Nat) :
    SecureHash.words (front ++ be 8 n) =
      Function.update (Function.update (SecureHash.words (front ++ back)) 15 (UInt32.ofNat n)) 14
        (UInt32.ofNat (n / 2 ^ 32)) := by
  funext i
  have hi := i.isLt
  by_cases h14 : i = 14
  · subst h14
    have hdrop : (front ++ be 8 n).drop (4 * (14 : Fin 16).val) = be 8 n := List.drop_left' hfront
    rw [Function.update_self, SecureHash.words, hdrop, be_eight, List.take_left' (be_length 4 _),
      ofNat_ofBe_be]
  · rw [Function.update_of_ne h14]
    by_cases h15 : i = 15
    · subst h15
      have hfour : (front ++ be 4 (n / 2 ^ 32)).length = 60 := by rw [List.length_append, hfront, be_length]
      have hdrop : (front ++ be 4 (n / 2 ^ 32) ++ be 4 n).drop (4 * (15 : Fin 16).val) = be 4 n := List.drop_left' hfour
      rw [Function.update_self, SecureHash.words, be_eight, ← List.append_assoc, hdrop,
        List.take_of_length_le (Nat.le_of_eq (be_length 4 n)), ofNat_ofBe_be]
    · have hfirst : i.val < 14 := by
        have hval14 : i.val ≠ 14 := fun heq => h14 (Fin.ext heq)
        have hval15 : i.val ≠ 15 := fun heq => h15 (Fin.ext heq)
        omega
      rw [Function.update_of_ne h15, words_front hfront _ hfirst, words_front hfront _ hfirst]

theorem totalBits_eq {s : Bytes} {ctx : Sha1} (h : Fed s ctx) :
    (ctx.transforms * UInt64.ofNat blockBytes + UInt64.ofNat ctx.buffer.length) * 8 = UInt64.ofNat (8 * s.length) := by
  have hbits : 8 * s.length = (s.length / 64 * 64 + s.length % 64) * 8 := by omega
  rw [hbits, UInt64.ofNat_mul, UInt64.ofNat_add, UInt64.ofNat_mul, h.transforms, h.length]
  rfl

theorem length_words (n : Nat) :
    (UInt64.ofNat n).toUInt32 = UInt32.ofNat n ∧ (UInt64.ofNat n >>> 32).toUInt32 = UInt32.ofNat (n / 2 ^ 32) := by
  constructor
  · apply UInt32.toNat_inj.mp
    simp only [UInt64.toNat_toUInt32, UInt64.toNat_ofNat', UInt32.toNat_ofNat']
    omega
  · apply UInt32.toNat_inj.mp
    simp only [UInt64.toNat_toUInt32, UInt64.toNat_shiftRight, UInt64.toNat_ofNat', UInt32.toNat_ofNat', UInt64.reduceToNat,
      Nat.reduceMod, Nat.shiftRight_eq_div_pow]
    omega

/-- The padding behind what is left of the message. -/
theorem absorb_pad {s : Bytes} {ctx : Sha1} (h : Fed s ctx) :
    absorb step 64 SecureHash.initial (SecureHash.pad s) =
      absorb step 64 (state ctx.digest)
        (ctx.buffer ++ 0x80 :: List.replicate (SecureHash.zeros s.length) 0 ++ be 8 (8 * s.length)) := by
  have habsorb := (absorbed_then s (0x80 :: List.replicate (SecureHash.zeros s.length) 0 ++ be 8 (8 * s.length))).1
  rw [← h.digest, ← h.buffer] at habsorb
  rw [SecureHash.pad, List.append_assoc, List.append_assoc, ← habsorb]

theorem words_zeros : SecureHash.words (List.replicate 56 0 ++ List.replicate 8 0) = fun _ => 0 := by
  funext i
  revert i
  decide

theorem final_fed {s : Bytes} {ctx : Sha1} (h : Fed s ctx) :
    state ctx.final = absorb step 64 SecureHash.initial (SecureHash.pad s) := by
  have hlength := h.length
  have hshort : ctx.buffer.length < 64 := ctx.short
  obtain ⟨hlow, hhigh⟩ := length_words (8 * s.length)
  have hsize : (ctx.buffer ++ [0x80]).length = ctx.buffer.length + 1 := List.length_append
  have hzeros : SecureHash.zeros s.length = (119 - ctx.buffer.length) % 64 := by rw [SecureHash.zeros, hlength]
  rw [absorb_pad h, final]
  simp only [totalBits_eq h, hlow, hhigh, hsize, hzeros]
  rw [transform_compress]
  by_cases hlong : blockBytes - 8 < ctx.buffer.length + 1
  · -- one block for what is left, and one for the length
    have hlate : 56 ≤ ctx.buffer.length := by
      simp only [blockBytes, blockInts] at hlong
      omega
    have hsplit : (119 - ctx.buffer.length) % 64 = blockBytes - (ctx.buffer.length + 1) + 56 := by
      simp only [blockBytes, blockInts]
      omega
    have hblock : (ctx.buffer ++ [0x80] ++ List.replicate (blockBytes - (ctx.buffer.length + 1)) 0).length = 64 := by
      simp only [List.length_append, List.length_replicate, List.length_singleton, blockBytes, blockInts]
      omega
    have htail : ctx.buffer ++ 0x80 :: List.replicate ((119 - ctx.buffer.length) % 64) 0 ++ be 8 (8 * s.length) =
        ctx.buffer ++ [0x80] ++ List.replicate (blockBytes - (ctx.buffer.length + 1)) 0 ++
          (List.replicate 56 0 ++ be 8 (8 * s.length)) := by
      rw [hsplit, ← List.replicate_append_replicate]
      simp only [List.append_assoc, List.cons_append, List.nil_append]
    have hlast : (List.replicate 56 (0 : UInt8) ++ be 8 (8 * s.length)).length = 64 := by
      rw [List.length_append, List.length_replicate, be_length]
    rw [if_pos hlong, if_pos hlong, transform_compress, bufferToBlock_eq hblock, htail, absorb_block (by decide) hblock,
      absorb_one (by decide) _ hlast, step, step, words_length List.length_replicate (List.replicate 8 0), words_zeros]
  · have hearly : ctx.buffer.length < 56 := by
      simp only [blockBytes, blockInts] at hlong
      omega
    have hfront : (ctx.buffer ++ 0x80 :: List.replicate (55 - ctx.buffer.length) 0).length = 56 := by
      simp only [List.length_append, List.length_cons, List.length_replicate]
      omega
    have hblock : ctx.buffer ++ [0x80] ++ List.replicate (blockBytes - (ctx.buffer.length + 1)) 0 =
        ctx.buffer ++ 0x80 :: List.replicate (55 - ctx.buffer.length) 0 ++ List.replicate 8 0 := by
      have hcount : blockBytes - (ctx.buffer.length + 1) = 55 - ctx.buffer.length + 8 := by
        simp only [blockBytes, blockInts]
        omega
      rw [hcount, ← List.replicate_append_replicate]
      simp only [List.append_assoc, List.cons_append, List.nil_append]
    have hone : (119 - ctx.buffer.length) % 64 = 55 - ctx.buffer.length := by omega
    have hbytes : (ctx.buffer ++ 0x80 :: List.replicate (55 - ctx.buffer.length) 0 ++ List.replicate 8 0).length = 64 := by
      rw [List.length_append, hfront, List.length_replicate]
    have hlast : (ctx.buffer ++ 0x80 :: List.replicate (55 - ctx.buffer.length) 0 ++ be 8 (8 * s.length)).length = 64 := by
      rw [List.length_append, hfront, be_length]
    rw [if_neg hlong, if_neg hlong, hblock, bufferToBlock_eq hbytes, hone, absorb_one (by decide) _ hlast, step,
      words_length hfront (List.replicate 8 0)]

/-! ## The digest -/

/-- `ctx` fed the pieces in turn, by one call of `update` each. -/
def updates (ctx : Sha1) (pieces : List Bytes) : Sha1 := pieces.foldl update ctx

theorem updates_fed {s : Bytes} {ctx : Sha1} (h : Fed s ctx) (pieces : List Bytes) :
    Fed (s ++ pieces.flatten) (ctx.updates pieces) := by
  induction pieces generalizing s ctx with
  | nil => rwa [List.flatten_nil, List.append_nil]
  | cons piece pieces ih =>
    rw [List.flatten_cons, ← List.append_assoc]
    exact ih (update_fed h piece)

theorem returned_eq (digest : Words) : returned digest = SecureHash.output (state digest) := by
  simp only [returned, stored_ntohl]
  rfl

/-- However a message is cut, an object fed its pieces ends with the standard's digest of
    the message. -/
theorem digest_of_pieces (pieces : List Bytes) : returned (new.updates pieces).final = SecureHash.sha1 pieces.flatten := by
  have hfed := updates_fed fed_new pieces
  rw [List.nil_append] at hfed
  rw [returned_eq, final_fed hfed]
  rfl

theorem sha1Digest_eq (input : Bytes) : sha1Digest input = SecureHash.sha1 input := by
  have h := digest_of_pieces [input]
  rwa [List.flatten_singleton] at h

theorem sha1Digest_length (input : Bytes) : (sha1Digest input).length = 20 := by
  rw [sha1Digest_eq]
  exact SecureHash.output_length _

end Frnetlib.Sha1
