/-
  Frnetlib.WebSocket.FrameStream — frames over a reliable FIFO byte stream.

  What `send` writes, `receive` of the other class reads back: the two bytes in front
  are taken apart into what they were put together from (`first2Bytes_final` and the
  lemmas after it), the length comes back whichever of the three forms it has
  (`receiveLength_awaits`), and a mask applied twice is gone (`maskFrom_maskFrom`). So
  receiving delivers the frames of a stream (`receive_delivers`), and the frames one
  side sends are those the other receives, in order, from any value of the counter on
  (`frame_stream`).
-/

import Frnetlib.Net.Stream
import Frnetlib.Net.TcpSocket
import Frnetlib.Packet.Framing
import Frnetlib.WebSocket.WebFrame

namespace Frnetlib

open Base Socket

namespace WebFrame

/-! ## The first two bytes -/

theorem lengthBits_lt (size : Nat) : lengthBits size < 128 := by
  unfold lengthBits
  split
  · omega
  · split <;> omega

theorem shiftLeft_or {a b k : Nat} (h : b < 2 ^ k) : a <<< k ||| b = a * 2 ^ k + b := by
  rw [← Nat.shiftLeft_add_eq_or_of_lt h, Nat.shiftLeft_eq]

theorem toNat_lt_two (b : Bool) : b.toNat < 2 := b.toNat_lt

theorem first2Bytes_eq {frame : WebFrame} (h : frame.opcode.named = true) :
    frame.first2Bytes = frame.final.toNat * 32768 + (frame.opcode.toNat * 256 +
      (frame.isClient.toNat * 128 + lengthBits frame.payload.length)) := by
  have hlen := lengthBits_lt frame.payload.length
  have hop := Opcode.named_lt h
  have hclient := toNat_lt_two frame.isClient
  have hfinal := toNat_lt_two frame.final
  rw [first2Bytes, Nat.or_assoc, Nat.or_assoc, shiftLeft_or (k := 7) hlen, shiftLeft_or (k := 8) (by omega),
    shiftLeft_or (k := 15) (by omega)]
  rfl

theorem first2Bytes_lt {frame : WebFrame} (h : frame.opcode.named = true) :
    frame.first2Bytes < 2 ^ 16 := by
  have hlen := lengthBits_lt frame.payload.length
  have hop := Opcode.named_lt h
  have hclient := toNat_lt_two frame.isClient
  have hfinal := toNat_lt_two frame.final
  rw [first2Bytes_eq h]
  omega

theorem first2Bytes_final {frame : WebFrame} (h : frame.opcode.named = true) :
    frame.first2Bytes >>> 15 &&& 1 = frame.final.toNat := by
  have hlen := lengthBits_lt frame.payload.length
  have hop := Opcode.named_lt h
  have hclient := toNat_lt_two frame.isClient
  have hfinal := toNat_lt_two frame.final
  rw [Nat.and_one_is_mod, Nat.shiftRight_eq_div_pow, first2Bytes_eq h]
  omega

theorem first2Bytes_opcode {frame : WebFrame} (h : frame.opcode.named = true) :
    Opcode.ofNat (frame.first2Bytes >>> 8 &&& 0xF) = frame.opcode := by
  have hlen := lengthBits_lt frame.payload.length
  have hop := Opcode.named_lt h
  have hclient := toNat_lt_two frame.isClient
  have hbits : frame.first2Bytes >>> 8 &&& 0xF = frame.opcode.toNat := by
    rw [Nat.and_two_pow_sub_one_eq_mod _ 4, Nat.shiftRight_eq_div_pow, first2Bytes_eq h]
    omega
  rw [hbits, Opcode.ofNat_toNat h]

theorem first2Bytes_mask {frame : WebFrame} (h : frame.opcode.named = true) :
    frame.first2Bytes >>> 7 &&& 1 = frame.isClient.toNat := by
  have hlen := lengthBits_lt frame.payload.length
  have hclient := toNat_lt_two frame.isClient
  rw [Nat.and_one_is_mod, Nat.shiftRight_eq_div_pow, first2Bytes_eq h]
  omega

theorem first2Bytes_length {frame : WebFrame} (h : frame.opcode.named = true) :
    frame.first2Bytes &&& 0x7F = lengthBits frame.payload.length := by
  have hlen := lengthBits_lt frame.payload.length
  rw [Nat.and_two_pow_sub_one_eq_mod _ 7, first2Bytes_eq h]
  omega

/-! ## The mask -/

theorem maskFrom_length (mask : Bytes) (a : Nat) (s : Bytes) : (maskFrom mask a s).length = s.length := by
  induction s generalizing a with
  | nil => rfl
  | cons b s ih => simp [maskFrom, ih]

theorem maskFrom_maskFrom (mask : Bytes) (a : Nat) (s : Bytes) : maskFrom mask a (maskFrom mask a s) = s := by
  induction s generalizing a with
  | nil => rfl
  | cons b s ih => rw [maskFrom, maskFrom, ih, UInt8.xor_assoc, UInt8.xor_self, UInt8.xor_zero]

theorem masked_length (frame : WebFrame) (key : UInt32) : (frame.masked key).length = frame.payload.length := by
  unfold masked applyMask
  split
  · exact maskFrom_length _ _ _
  · rfl

/-! ## Reading a frame -/

variable {σ : Type} [FifoReceiver σ]

theorem receiveLength_awaits {size : Nat} (h : size < 2 ^ 64) :
    Awaits (σ := σ) (receiveLength (lengthBits size)) (lengthBytes size) size := by
  by_cases h7 : size ≤ 125
  · have hbits : lengthBits size = size := if_pos h7
    have hbytes : lengthBytes size = [] := if_neg (by omega)
    have hfun : receiveLength (σ := σ) size = fun w => some (.success, size, w) := by
      funext w
      rw [receiveLength, if_neg (by omega), if_neg (by omega)]
    rw [hbits, hbytes, hfun]
    exact Awaits.pure size
  · by_cases h16 : size < 65535
    · have hbits : lengthBits size = 126 := by rw [lengthBits, if_neg h7, if_pos h16]
      have hbytes : lengthBytes size = be 2 size := by rw [lengthBytes, if_pos (by omega), if_pos h16]
      have hread := (Awaits.rest (σ := σ) (be 2 size) (be_length _ _)).map ofBe
      rw [ofBe_be (by omega)] at hread
      rw [hbits, hbytes]
      exact hread
    · have hbits : lengthBits size = 127 := by rw [lengthBits, if_neg h7, if_neg h16]
      have hbytes : lengthBytes size = be 8 size := by rw [lengthBytes, if_pos (by omega), if_neg h16]
      have hread := (Awaits.rest (σ := σ) (be 8 size) (be_length _ _)).map ofBe
      rw [ofBe_be (by omega)] at hread
      rw [hbits, hbytes]
      exact hread

theorem receiveMask_awaits (frame : WebFrame) (key : UInt32) :
    ∃ mask, Awaits (σ := σ) (receiveMask frame.isClient) (if frame.isClient then maskBytes key else []) mask ∧
      (frame.isClient = true → mask = maskBytes key) := by
  by_cases hc : frame.isClient = true
  · refine ⟨maskBytes key, ?_, fun _ => rfl⟩
    rw [hc]
    exact Awaits.rest _ (by simp [maskBytes])
  · refine ⟨[0, 0, 0, 0], ?_, fun h => absurd h hc⟩
    rw [Bool.not_eq_true] at hc
    rw [hc]
    exact Awaits.pure _

/-- A frame a receiver with this limit takes, and the class it expects. -/
structure Sendable (isClient : Bool) (maxReceiveSize : Nat) (frame : WebFrame) : Prop where
  client : frame.isClient = isClient
  opcode : frame.opcode.named = true
  length : frame.payload.length < 2 ^ 62
  limit : maxReceiveSize = 0 ∨ frame.payload.length ≤ maxReceiveSize

theorem bool_toNat_ne_zero (b : Bool) : decide (b.toNat ≠ 0) = b := by cases b <;> rfl

theorem resized_self (s : Bytes) : resized s.length s = s := by simp [resized]

/-- What is read once the length is known: the mask, if there is one, and the payload. -/
theorem receivePayload_awaits (frame g : WebFrame) (hlength : frame.payload.length < 2 ^ 62) (key : UInt32) :
    Awaits (σ := σ)
      (andThen (receiveMask frame.isClient) (fun _ => g) fun maskKey =>
        if maxSize < frame.payload.length then fun _ => none
        else
          andThen (receiveRest frame.payload.length) (fun b => { g with payload := resized frame.payload.length b })
            fun b w => some (.success,
              { g with payload := applyMask frame.isClient maskKey (resized frame.payload.length b) }, w))
      ((if frame.isClient then maskBytes key else []) ++ frame.masked key) { g with payload := frame.payload } := by
  have hfits : ¬ maxSize < frame.payload.length := by
    unfold maxSize
    omega
  simp only [if_neg hfits]
  obtain ⟨mask, hmask, hkey⟩ := receiveMask_awaits (σ := σ) frame key
  have hlen := masked_length frame key
  have hplain : applyMask frame.isClient mask (resized frame.payload.length (frame.masked key)) = frame.payload := by
    rw [← hlen, resized_self]
    by_cases hc : frame.isClient = true
    · rw [applyMask, if_pos hc, hkey hc, masked, applyMask, if_pos hc, maskFrom_maskFrom]
    · rw [applyMask, if_neg hc, masked, applyMask, if_neg hc]
  have hread : Awaits (σ := σ)
      (andThen (receiveRest frame.payload.length) (fun b => { g with payload := resized frame.payload.length b })
        fun b w => some (.success,
          { g with payload := applyMask frame.isClient mask (resized frame.payload.length b) }, w))
      (frame.masked key ++ []) { g with payload := frame.payload } := by
    refine (Awaits.rest (frame.masked key) hlen).andThen ?_
    rw [hplain]
    exact Awaits.pure _
  rw [List.append_nil] at hread
  exact hmask.andThen hread

theorem receive_delivers (maxReceiveSize : Nat) (g : WebFrame) :
    Delivers (σ := σ) (receive maxReceiveSize g)
      (fun kf : UInt32 × WebFrame => Sendable (!g.isClient) maxReceiveSize kf.2)
      (fun kf => kf.2.text kf.1) (fun kf frame => frame = { kf.2 with isClient := g.isClient }) := by
  refine Delivers.of_awaits (by decide) fun ⟨key, frame⟩ hf => ?_
  refine ⟨be 2 frame.first2Bytes, lengthBytes frame.payload.length ++
    ((if frame.isClient then maskBytes key else []) ++ frame.masked key), _, ?_, be_length _ _, rfl, ?_⟩
  · rw [text, List.append_assoc, List.append_assoc]
  · have hop := hf.opcode
    have hlimit := hf.limit
    have hclient : frame.isClient ≠ g.isClient := by
      rw [hf.client]; cases g.isClient <;> decide
    have hofBe : ofBe (be 2 frame.first2Bytes) = frame.first2Bytes := ofBe_be (first2Bytes_lt hop)
    simp only [hofBe, first2Bytes_final hop, first2Bytes_opcode hop, first2Bytes_mask hop, first2Bytes_length hop,
      bool_toNat_ne_zero, if_neg hclient]
    refine (receiveLength_awaits (Nat.lt_trans hf.length (by decide))).andThen ?_
    have hle : ¬(maxReceiveSize ≠ 0 ∧ maxReceiveSize < frame.payload.length) := by
      change maxReceiveSize = 0 ∨ frame.payload.length ≤ maxReceiveSize at hlimit
      omega
    rw [if_neg hle]
    exact receivePayload_awaits frame _ hf.length key

/-! ## A stream of frames -/

/-- The frames with the value of the counter each is sent with. -/
def keyed : UInt32 → List WebFrame → List (UInt32 × WebFrame)
  | _, [] => []
  | key, frame :: frames => (frame.nextKey key, frame) :: keyed (frame.nextKey key) frames

theorem keyed_frames (key : UInt32) (frames : List WebFrame) : (keyed key frames).map Prod.snd = frames := by
  induction frames generalizing key with
  | nil => rfl
  | cons frame frames ih => rw [keyed, List.map_cons, ih]

theorem keyed_mem {key : UInt32} {frames : List WebFrame} {kf : UInt32 × WebFrame} (h : kf ∈ keyed key frames) :
    kf.2 ∈ frames := by
  rw [← keyed_frames key frames]
  exact List.mem_map_of_mem h

def texts (key : UInt32) (frames : List WebFrame) : List Bytes := (keyed key frames).map fun kf => kf.2.text kf.1

theorem sendAll_eq {τ : Type} [Sender τ] (frames : List WebFrame) (key : UInt32) (w : τ) :
    (sendAll frames key w).1 = (sendEach (texts key frames) w).1 ∧
      (sendAll frames key w).2.2 = (sendEach (texts key frames) w).2 := by
  induction frames generalizing key w with
  | nil => exact ⟨rfl, rfl⟩
  | cons frame frames ih =>
    rw [sendAll, texts, keyed, List.map_cons, sendEach, send]
    rcases sendLoop (frame.text (frame.nextKey key)) 0 w with ⟨_ | st, w'⟩
    · exact ⟨rfl, rfl⟩
    · obtain ⟨h₁, h₂⟩ := ih (frame.nextKey key) w'
      exact ⟨congrArg (st :: ·) h₁, h₂⟩

end WebFrame

/-- Frames of one class sent over a reliable FIFO stream, from any value of the counter
    on and as far as the sends have come, and any number of receives with a frame of
    the other class, as far as the bytes have come: every send that has returned
    succeeded, every receive that has succeeded or would block; the k-th success gave
    the opcode, flag and payload of the k-th frame, and exactly the bytes of the first k
    were taken. With all frames sent and arrived, enough receives get them all. -/
theorem frame_stream {σ τ : Type} [FifoReceiver σ] [FifoSender τ] (isClient : Bool) (frames : List WebFrame)
    (maxReceiveSize : Nat) (hf : ∀ frame ∈ frames, frame.Sendable isClient maxReceiveSize) (key : UInt32) (tx : τ)
    (rx : σ) (hconn : Connected tx (WebFrame.sendAll frames key tx).2.2 rx) (g : WebFrame)
    (hg : g.isClient = !isClient) (n : Nat) :
    let sent := WebFrame.sendAll frames key tx
    let run := calls (WebFrame.receive maxReceiveSize g) n rx
    (∀ st ∈ sent.1, st = .success) ∧
    (∀ r ∈ run.1, r.1 = .success ∨ r.1 = .wouldBlock) ∧
    ∃ k, k ≤ frames.length ∧
      received run.1 = (frames.take k).map (fun frame => { frame with isClient := !isClient }) ∧
      Receiver.pending rx = ((WebFrame.texts key frames).take k).flatten ++ Receiver.pending run.2 ∧
      (sent.1.length = frames.length → Sender.out sent.2.2 = Sender.out tx ++ Receiver.pending rx →
        Receiver.left rx + frames.length ≤ n → k = frames.length) := by
  intro sent run
  have hlen : (WebFrame.keyed key frames).length = frames.length := by
    rw [← List.length_map (f := Prod.snd), WebFrame.keyed_frames]
  obtain ⟨hstatuses, hwriter⟩ := WebFrame.sendAll_eq frames key tx
  have hgood : ∀ kf ∈ WebFrame.keyed key frames, kf.2.Sendable (!g.isClient) maxReceiveSize := by
    intro kf hkf
    rw [hg, Bool.not_not]
    exact hf _ (WebFrame.keyed_mem hkf)
  rw [hwriter] at hconn
  obtain ⟨hsucc, k, htaken, hall⟩ := stream_faithful (WebFrame.receive_delivers maxReceiveSize g) hgood hconn n
  rw [← WebFrame.texts, ← hstatuses, ← hwriter, hlen] at hall
  rw [← WebFrame.texts, ← hstatuses] at hsucc
  refine ⟨hsucc, htaken.status, k, hlen ▸ htaken.le, ?_, ?_, hall⟩
  · have hframes : ((WebFrame.keyed key frames).take k).map Prod.snd = frames.take k := by
      rw [List.map_take, WebFrame.keyed_frames]
    rw [← hframes, List.map_map, forall₂_map htaken.messages, hg]
    rfl
  · rw [WebFrame.texts, ← List.map_take, ← List.flatMap_def]
    exact htaken.took

def sampleFrames : List WebFrame := [⟨true, [104], .text, false⟩, ⟨true, [], .pong, true⟩]

/-- The second frame's mask is that of the wrapped counter. -/
def sampleTexts : Bytes := [0x01, 0x81, 255, 255, 255, 255, 151, 0x8A, 0x80, 0, 0, 0, 0]

def frameWriter : FifoWriter := ⟨⟨false, [], [.accepted 3, .ewouldblock]⟩, by decide⟩

def frameReader : FifoReader := ⟨⟨false, sampleTexts, [.received 0, .ewouldblock, .received 2, .eintr]⟩, by decide⟩

theorem sendFrames_sample : WebFrame.sendAll sampleFrames 0xFFFFFFFE frameWriter =
    ([.success, .success], 0, ⟨⟨false, sampleTexts, []⟩, by decide⟩) := by
  let middle : FifoWriter := ⟨⟨false, [0x01, 0x81, 255, 255, 255, 255, 151], []⟩, by decide⟩
  have hblock : Sender.sendRaw (WebFrame.text ⟨true, [104], .text, false⟩ 0xFFFFFFFF) 0 frameWriter =
      (some (.wouldBlock, 3), ⟨⟨false, [0x01, 0x81, 255], []⟩, by decide⟩) := rfl
  have hfirst : sendLoop (WebFrame.text ⟨true, [104], .text, false⟩ 0xFFFFFFFF) 0 frameWriter =
      (some .success, middle) := (sendLoop_again hblock).trans (sendLoop_done rfl (by decide))
  have hsecond : sendLoop (WebFrame.text ⟨true, [], .pong, true⟩ 0) 0 middle =
      (some .success, ⟨⟨false, sampleTexts, []⟩, by decide⟩) := sendLoop_done rfl (by decide)
  have hlast : WebFrame.sendAll [⟨true, [], .pong, true⟩] 0xFFFFFFFF middle =
      ([.success], 0, ⟨⟨false, sampleTexts, []⟩, by decide⟩) := by
    rw [WebFrame.sendAll, WebFrame.send, show WebFrame.nextKey ⟨true, [], .pong, true⟩ 0xFFFFFFFF = 0 from rfl, hsecond]
    rfl
  rw [sampleFrames, WebFrame.sendAll, WebFrame.send,
    show WebFrame.nextKey ⟨true, [104], .text, false⟩ 0xFFFFFFFE = 0xFFFFFFFF from rfl, hfirst]
  simp only [hlast]

theorem sampleFrames_sendable : ∀ frame ∈ sampleFrames, frame.Sendable true 1 := by
  intro frame hframe
  simp only [sampleFrames, List.mem_cons, List.not_mem_nil, or_false] at hframe
  rcases hframe with rfl | rfl
  · exact ⟨rfl, rfl, by decide, .inr (by decide)⟩
  · exact ⟨rfl, rfl, by decide, .inr (by decide)⟩

theorem frame_stream_sample :
    received (calls (WebFrame.receive 1 (WebFrame.new false .text)) 19 frameReader).1 =
      [⟨false, [104], .text, false⟩, ⟨false, [], .pong, true⟩] := by
  obtain ⟨_, _, k, _, hrec, _, hall⟩ := frame_stream true sampleFrames 1
    sampleFrames_sendable 0xFFFFFFFE frameWriter frameReader (by rw [sendFrames_sample]; exact ⟨_, rfl, List.prefix_rfl⟩)
    (WebFrame.new false .text) rfl 19
  rw [sendFrames_sample] at hall
  have hk : k = 2 := hall rfl rfl (by decide)
  rw [hk] at hrec
  exact hrec

end Frnetlib
