/-
  Frnetlib.Net.ReceiveAll — `Socket::receive_all` (`Socket.cpp`) on the machine's integers
  and on the memory it fills.

  `receiveAllInto` keeps what is missing in an `ssize_t`, takes the place of the next byte
  and the test for "nothing read yet" from it, and writes each read where it belongs. For
  a size below 2^63 it is `receiveAll`, with the bytes of that written from the
  destination's first position on (`receiveAllInto_eq`). So, on any socket, whatever its
  reads do, it delivers all the bytes or says that it has not (`receive_all_delivers`).
-/

import Frnetlib.Net.Retry

namespace Frnetlib.Socket

open Base Receiver

/-! ## The destination -/

/-- What lies behind a pointer, by offset. -/
abbrev Memory : Type := Nat → UInt8

/-- `b` stored from `offset` on. -/
def Memory.write (m : Memory) (offset : Nat) (b : Bytes) : Memory := fun i =>
  if i < offset then m i else b.getD (i - offset) (m i)

theorem Memory.write_nil (m : Memory) (offset : Nat) : m.write offset [] = m := by
  funext i
  simp [write]

/-- Two pieces written one behind the other. -/
theorem Memory.write_write (m : Memory) (offset : Nat) (b c : Bytes) :
    (m.write offset b).write (offset + b.length) c = m.write offset (b ++ c) := by
  funext i
  simp only [write, List.getD_eq_getElem?_getD, List.getElem?_append]
  by_cases hbefore : i < offset
  · rw [if_pos (by omega), if_pos hbefore, if_pos hbefore]
  · rw [if_neg hbefore, if_neg hbefore]
    by_cases hfirst : i < offset + b.length
    · rw [if_pos hfirst, if_pos (by omega)]
    · have hbeyond : b[i - offset]? = none := List.getElem?_eq_none (by omega)
      rw [if_neg hfirst, if_neg (by omega), hbeyond, Option.getD_none, Nat.sub_sub]

/-! ## The loop -/

variable {σ : Type} [Receiver σ]

theorem toNat_pos_of_pos {n : Int64} (h : 0 < n) : 0 < n.toUInt64.toNat := by
  refine Nat.pos_of_ne_zero fun hzero => ?_
  have hn : n.toUInt64 = 0 := UInt64.toNat_inj.mp hzero
  rw [← n.toInt64_toUInt64, hn] at h
  exact absurd h (by decide)

/-- `bytes_remaining -= received` is one of `size_t`, and back. -/
def receiveAllIntoFrom (bufferSize : UInt64) (bytesRemaining : Int64) (dest : Memory) (w : σ) :
    Option (Status × Memory × σ) :=
  if hr : 0 < bytesRemaining then
    match h : receiveRaw bytesRemaining.toUInt64.toNat w with
    | none => none
    | some (status, b, w') =>
      have := raw_left h (toNat_pos_of_pos hr)
      let dest := dest.write (bufferSize - bytesRemaining.toUInt64).toNat b
      let received := UInt64.ofNat b.length
      let bytesRemaining := (bytesRemaining.toUInt64 - received).toInt64
      if status ≠ .success then
        if bufferSize.toInt64 = bytesRemaining then some (status, dest, w')
        else if status = .wouldBlock then receiveAllIntoFrom bufferSize bytesRemaining dest w'
        else some (.disconnected, dest, w')
      else receiveAllIntoFrom bufferSize bytesRemaining dest w'
  else some (.success, dest, w)
termination_by left w

def receiveAllInto (bufferSize : UInt64) (dest : Memory) (w : σ) : Option (Status × Memory × σ) :=
  receiveAllIntoFrom bufferSize bufferSize.toInt64 dest w

/-! ## Without wrapping -/

theorem ofNat_toNat {n : Nat} (h : n < 2 ^ 63) : (UInt64.ofNat n).toNat = n :=
  UInt64.toNat_ofNat_of_lt' (Nat.lt_trans h (by decide))

/-- What is missing, as the loop holds it. -/
def remainder (n : Nat) : Int64 := (UInt64.ofNat n).toInt64

theorem remainder_toInt {n : Nat} (h : n < 2 ^ 63) : (remainder n).toInt = n := Int64.toInt_ofNat_of_lt h

theorem remainder_pos {n : Nat} (h : n < 2 ^ 63) : 0 < remainder n ↔ 0 < n := by
  rw [Int64.lt_iff_toInt_lt, remainder_toInt h]
  exact Int.natCast_pos

theorem remainder_inj {m n : Nat} (hm : m < 2 ^ 63) (hn : n < 2 ^ 63) : remainder m = remainder n ↔ m = n := by
  rw [← Int64.toInt_inj, remainder_toInt hm, remainder_toInt hn, Int.natCast_inj]

theorem remainder_toNat {n : Nat} (h : n < 2 ^ 63) : (remainder n).toUInt64.toNat = n := ofNat_toNat h

/-- A read stores no more than was asked for. -/
theorem remainder_sub {m n : Nat} (hle : n ≤ m) :
    ((remainder m).toUInt64 - UInt64.ofNat n).toInt64 = remainder (m - n) := by
  change (UInt64.ofNat m - UInt64.ofNat n).toInt64 = (UInt64.ofNat (m - n)).toInt64
  rw [UInt64.ofNat_sub hle]

theorem offset_toNat {size n : Nat} (hsize : size < 2 ^ 63) (hle : n ≤ size) :
    (UInt64.ofNat size - (remainder n).toUInt64).toNat = size - n := by
  change (UInt64.ofNat size - UInt64.ofNat n).toNat = size - n
  rw [← UInt64.ofNat_sub hle]
  exact ofNat_toNat (Nat.lt_of_le_of_lt (Nat.sub_le _ _) hsize)

/-! ## One round -/

/-- What `receive_all` does with the outcome of a read, and how it goes on. -/
theorem receiveAllFrom_round {size remaining : Nat} (hr : remaining ≠ 0) {w w' : σ} {status : Status} {b : Bytes}
    (h : receiveRaw remaining w = some (status, b, w')) :
    receiveAllFrom size remaining w =
      if status ≠ .success then
        if size = remaining - b.length then some (status, b, w')
        else if status = .wouldBlock then (receiveAllFrom size (remaining - b.length) w').map (prepend b)
        else some (.disconnected, b, w')
      else (receiveAllFrom size (remaining - b.length) w').map (prepend b) := by
  rw [receiveAllFrom, dif_neg hr]
  split
  · rename_i hraw
    rw [h] at hraw
    cases hraw
  · rename_i hraw
    rw [h] at hraw
    cases hraw
    rfl

theorem receiveAllFrom_waits {size remaining : Nat} (hr : remaining ≠ 0) {w : σ} (h : receiveRaw remaining w = none) :
    receiveAllFrom size remaining w = none := by
  rw [receiveAllFrom, dif_neg hr]
  split
  · rfl
  · rename_i hraw
    rw [h] at hraw
    cases hraw

theorem receiveAllIntoFrom_done (bufferSize : UInt64) (dest : Memory) (w : σ) :
    receiveAllIntoFrom bufferSize (remainder 0) dest w = some (.success, dest, w) := by
  rw [receiveAllIntoFrom, dif_neg (by decide)]

theorem receiveAllIntoFrom_round {size remaining : Nat} (hsize : size < 2 ^ 63) (hle : remaining ≤ size)
    (hr : remaining ≠ 0) {dest : Memory} {w w' : σ} {status : Status} {b : Bytes}
    (h : receiveRaw remaining w = some (status, b, w')) :
    receiveAllIntoFrom (UInt64.ofNat size) (remainder remaining) dest w =
      if status ≠ .success then
        if size = remaining - b.length then some (status, dest.write (size - remaining) b, w')
        else if status = .wouldBlock then
          receiveAllIntoFrom (UInt64.ofNat size) (remainder (remaining - b.length)) (dest.write (size - remaining) b) w'
        else some (.disconnected, dest.write (size - remaining) b, w')
      else
        receiveAllIntoFrom (UInt64.ofNat size) (remainder (remaining - b.length)) (dest.write (size - remaining) b)
          w' := by
  have hlt : remaining < 2 ^ 63 := Nat.lt_of_le_of_lt hle hsize
  have hnothing : (UInt64.ofNat size).toInt64 = remainder (remaining - b.length) ↔ size = remaining - b.length :=
    remainder_inj hsize (Nat.lt_of_le_of_lt (Nat.sub_le _ _) hlt)
  rw [receiveAllIntoFrom, dif_pos ((remainder_pos hlt).mpr (Nat.pos_of_ne_zero hr))]
  split
  · rename_i hraw
    rw [remainder_toNat hlt, h] at hraw
    cases hraw
  · rename_i hraw
    rw [remainder_toNat hlt, h] at hraw
    cases hraw
    simp only [remainder_sub (raw_length h), offset_toNat hsize hle, hnothing]

theorem receiveAllIntoFrom_waits {bufferSize : UInt64} {remaining : Nat} (hlt : remaining < 2 ^ 63)
    (hr : remaining ≠ 0) {dest : Memory} {w : σ} (h : receiveRaw remaining w = none) :
    receiveAllIntoFrom bufferSize (remainder remaining) dest w = none := by
  rw [receiveAllIntoFrom, dif_pos ((remainder_pos hlt).mpr (Nat.pos_of_ne_zero hr))]
  split
  · rfl
  · rename_i hraw
    rw [remainder_toNat hlt, h] at hraw
    cases hraw

/-! ## The whole loop -/

/-- The bytes of `receive_all`, in the destination from `offset` on. -/
def stored (dest : Memory) (offset : Nat) (r : Status × Bytes × σ) : Status × Memory × σ :=
  (r.1, dest.write offset r.2.1, r.2.2)

omit [Receiver σ] in
theorem stored_prepend (dest : Memory) (offset : Nat) (b : Bytes) (x : Option (Status × Bytes × σ)) :
    (x.map (prepend b)).map (stored dest offset) = x.map (stored (dest.write offset b) (offset + b.length)) := by
  rw [Option.map_map]
  congr 1
  funext r
  simp only [stored, prepend, Function.comp_apply, Memory.write_write]

theorem receiveAllIntoFrom_eq {size remaining : Nat} (hsize : size < 2 ^ 63) (hle : remaining ≤ size) (dest : Memory)
    (w : σ) :
    receiveAllIntoFrom (UInt64.ofNat size) (remainder remaining) dest w =
      (receiveAllFrom size remaining w).map (stored dest (size - remaining)) := by
  generalize hm : left w = m
  induction m using Nat.strongRecOn generalizing remaining dest w with
  | ind m ih =>
    by_cases hr : remaining = 0
    · subst hr
      rw [receiveAllIntoFrom_done, receiveAllFrom, dif_pos rfl, Option.map_some, stored, Memory.write_nil]
    · rcases hraw : receiveRaw remaining w with _ | ⟨status, b, w'⟩
      · rw [receiveAllFrom_waits hr hraw, receiveAllIntoFrom_waits (Nat.lt_of_le_of_lt hle hsize) hr hraw]
        rfl
      · have hb := raw_length hraw
        have hleft : left w' < m := hm ▸ raw_left hraw (Nat.pos_of_ne_zero hr)
        have hoffset : size - (remaining - b.length) = size - remaining + b.length := by omega
        have hagain := ih _ hleft (Nat.le_trans (Nat.sub_le remaining b.length) hle)
          (dest.write (size - remaining) b) w' rfl
        rw [hoffset, ← stored_prepend] at hagain
        rw [receiveAllIntoFrom_round hsize hle hr hraw, receiveAllFrom_round hr hraw, hagain]
        simp only [apply_ite (Option.map (stored dest (size - remaining)))]
        rfl

/-- On the machine's integers and memory it is `receiveAll`. -/
theorem receiveAllInto_eq {bufferSize : UInt64} (hsize : bufferSize.toNat < 2 ^ 63) (dest : Memory) (w : σ) :
    receiveAllInto bufferSize dest w = (receiveAll bufferSize.toNat w).map (stored dest 0) := by
  have hfrom := receiveAllIntoFrom_eq hsize (Nat.le_refl _) dest w
  rwa [remainder, UInt64.ofNat_toNat, Nat.sub_self] at hfrom

/-- A call that fails has not filled the destination. -/
theorem receiveAllFrom_short {size remaining : Nat} {w w' : σ} {st : Status} {b : Bytes}
    (h : receiveAllFrom size remaining w = some (st, b, w')) (hst : st ≠ .success) : b.length < remaining := by
  generalize hm : left w = m
  induction m using Nat.strongRecOn generalizing remaining w b with
  | ind m ih =>
    by_cases hr : remaining = 0
    · rw [receiveAllFrom, dif_pos hr] at h
      cases h
      exact absurd rfl hst
    · rcases hraw : receiveRaw remaining w with _ | ⟨status, c, w₁⟩
      · rw [receiveAllFrom_waits hr hraw] at h
        cases h
      · have hleft : left w₁ < m := hm ▸ raw_left hraw (Nat.pos_of_ne_zero hr)
        have hagain : (receiveAllFrom size (remaining - c.length) w₁).map (prepend c) = some (st, b, w') →
            b.length < remaining := by
          intro hmap
          obtain ⟨⟨st₂, b₂, w₂⟩, h₂, he⟩ := Option.map_eq_some_iff.mp hmap
          cases he
          have hshort := ih _ hleft h₂ rfl
          change (c ++ b₂).length < remaining
          rw [List.length_append]
          omega
        rw [receiveAllFrom_round hr hraw] at h
        by_cases hstatus : status = .success
        · exact hagain (by rwa [if_neg (not_not_intro hstatus)] at h)
        · have hc : c = [] := raw_fails hraw hstatus
          rw [if_pos hstatus] at h
          split at h
          · cases h
            rw [hc]
            exact Nat.pos_of_ne_zero hr
          · split at h
            · exact hagain h
            · cases h
              rw [hc]
              exact Nat.pos_of_ne_zero hr

/-- On a socket whose reads may have any outcomes, of a call that returns: the bytes it took
    off the stream lie in the destination from its first position on, and nothing else of
    it has changed. Success is answered exactly when they are all that was asked for; a
    failure but Disconnected only when there is none; and after some of them the only
    failure is Disconnected. -/
theorem receive_all_delivers {bufferSize : UInt64} (hsize : bufferSize.toNat < 2 ^ 63) {dest dest' : Memory}
    {w w' : σ} {st : Status} (h : receiveAllInto bufferSize dest w = some (st, dest', w')) :
    ∃ b : Bytes, pending w = b ++ pending w' ∧ b.length ≤ bufferSize.toNat ∧ (∀ i, dest' i = b.getD i (dest i)) ∧
      (st = .success ↔ b.length = bufferSize.toNat) ∧ (st ≠ .success → st ≠ .disconnected → b = []) ∧
      (b ≠ [] → b.length < bufferSize.toNat → st = .disconnected) := by
  rw [receiveAllInto_eq hsize] at h
  obtain ⟨⟨st₁, b, w₁⟩, hall, hr⟩ := Option.map_eq_some_iff.mp h
  obtain ⟨rfl, rfl, rfl⟩ : st₁ = st ∧ dest.write 0 b = dest' ∧ w₁ = w' := by simpa [stored] using hr
  obtain ⟨hpending, hsuccess, hother⟩ := receiveAllFrom_takes (Nat.le_refl _) hall
  have hshort : st₁ ≠ .success → b.length < bufferSize.toNat := receiveAllFrom_short hall
  have hfull : st₁ = .success ↔ b.length = bufferSize.toNat := by
    refine ⟨hsuccess, fun hlength => ?_⟩
    by_contra hst
    exact absurd hlength (Nat.ne_of_lt (hshort hst))
  refine ⟨b, hpending, ?_, fun i => ?_, hfull, fun hst hgone => (hother hst hgone).2, fun hsome hpart => ?_⟩
  · by_cases hst : st₁ = .success
    · exact Nat.le_of_eq (hfull.mp hst)
    · exact Nat.le_of_lt (hshort hst)
  · simp [Memory.write]
  · have hst : st₁ ≠ .success := fun hst => absurd (hfull.mp hst) (Nat.ne_of_lt hpart)
    by_contra hgone
    exact hsome (hother hst hgone).2

/-- Three bytes of four in two pieces, and the connection lost. -/
def piecewise : Script := ⟨[(.success, [1, 2]), (.wouldBlock, []), (.success, [3]), (.error, [])]⟩

theorem receiveAllInto_piecewise (dest : Memory) :
    receiveAllInto 4 dest piecewise = some (.disconnected, dest.write 0 [1, 2, 3], ⟨[]⟩) := by
  have hlost : receiveAllFrom 4 1 (⟨[(.error, [])]⟩ : Script) = some (.disconnected, [], ⟨[]⟩) := by
    rw [receiveAllFrom_round (by decide) rfl]
    rfl
  have hthird : receiveAllFrom 4 2 (⟨[(.success, [3]), (.error, [])]⟩ : Script) = some (.disconnected, [3], ⟨[]⟩) := by
    rw [receiveAllFrom_round (by decide) rfl]
    exact congrArg (Option.map (prepend [3])) hlost
  have hblock : receiveAllFrom 4 2 (⟨[(.wouldBlock, []), (.success, [3]), (.error, [])]⟩ : Script) =
      some (.disconnected, [3], ⟨[]⟩) := by
    rw [receiveAllFrom_round (by decide) rfl]
    exact congrArg (Option.map (prepend [])) hthird
  have hall : receiveAll 4 piecewise = some (.disconnected, [1, 2, 3], ⟨[]⟩) := by
    rw [receiveAll, receiveAllFrom_round (by decide) rfl]
    exact congrArg (Option.map (prepend [1, 2])) hblock
  rw [receiveAllInto_eq (by decide)]
  exact congrArg (Option.map (stored dest 0)) hall

theorem receive_all_delivers_sample :
    ∃ b : Bytes, pending piecewise = b ++ pending (⟨[]⟩ : Script) ∧
      (∀ i, Memory.write (fun _ => 0) 0 [1, 2, 3] i = b.getD i 0) ∧ b.length ≤ 4 := by
  obtain ⟨b, hpending, hle, hstored, -⟩ :=
    receive_all_delivers (by decide) (receiveAllInto_piecewise fun _ => 0)
  exact ⟨b, hpending, hstored, hle⟩

end Frnetlib.Socket
