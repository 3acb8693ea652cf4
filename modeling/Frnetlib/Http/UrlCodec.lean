/-
  Frnetlib.Http.UrlCodec — `Http::url_encode` and `Http::url_decode`.

  A character is a byte here. The comparisons of `url_encode` say the same of a `char`
  that is signed; `url_decode` computes with it as an `int` (`signed`).

  Encoding leaves nothing that ends an argument or a value, and decoding takes it back
  (`codec_round_trip`). A digit is made a number by subtracting 48, and 7 more above 9: a
  lower-case digit keeps the bit 32 over its value. In front of the other digit that bit is
  shifted out, and behind it the bit is harmless only where the first digit has it too
  (`urlDecode_standard`).
-/

import Frnetlib.Base.Percent
import Frnetlib.Http.Arguments

namespace Frnetlib.Http

open Base

/-! ## Encoding -/

def unreserved (c : UInt8) : Bool :=
  48 ≤ c && c ≤ 57 || 97 ≤ c && c ≤ 122 || 65 ≤ c && c ≤ 90 || c ∈ bytes "-_.!~*'()"

def hexLookup : Bytes := bytes "0123456789ABCDEF"

def encodeChar (c : UInt8) : Bytes :=
  if unreserved c then [c]
  else if c = SP then bytes "+"
  else [37, hexLookup.getD ((c.toNat &&& 0xF0) >>> 4) 0, hexLookup.getD (c.toNat &&& 0x0F) 0]

def urlEncode (str : Bytes) : Bytes := str.flatMap encodeChar

/-! ## Decoding -/

/-- A `char` as the `int` it is promoted to. -/
def signed (c : UInt8) : Int := if c.toNat < 128 then c.toNat else c.toNat - 256

/-- `ch1` and `ch2`. -/
def digit (c : UInt8) : Int :=
  let ch := signed c - 48
  if 9 < ch then ch - 7 else ch

/-- `ret |= ch1 << 4; ret |= ch2;` in eight bits. -/
def escaped (x y : UInt8) : UInt8 := UInt8.ofInt (digit x * 16) ||| UInt8.ofInt (digit y)

/-- A `%` that is not the last character takes the two behind it, the second of which may be
    the NUL at the end. -/
def urlDecode : Bytes → Bytes
  | [] => []
  | [c] => [unplus c]
  | [c, x] => if c = 37 then [escaped x 0] else [unplus c, unplus x]
  | c :: x :: y :: s => if c = 37 then escaped x y :: urlDecode s else unplus c :: urlDecode (x :: y :: s)

theorem urlDecode_plain {c : UInt8} (h : c ≠ 37) (s : Bytes) : urlDecode (c :: s) = unplus c :: urlDecode s := by
  rcases s with _ | ⟨x, _ | ⟨y, s⟩⟩
  · rfl
  · rw [urlDecode, urlDecode, if_neg h]
  · rw [urlDecode, if_neg h]

theorem urlDecode_escape (x y : UInt8) (s : Bytes) : urlDecode (37 :: x :: y :: s) = escaped x y :: urlDecode s := by
  rw [urlDecode, if_pos rfl]

/-! ## The digits of an escape -/

/-- A digit as the first of an escape, and as the second: there a small letter has the bit 32
    over its value. -/
theorem digit_places : ∀ x, isDigit 16 x = true →
    UInt8.ofInt (digit x * 16) = UInt8.ofNat (16 * digitVal x) ∧
      UInt8.ofInt (digit x) = UInt8.ofNat (16 * (if 97 ≤ x then 2 else 0) + digitVal x) :=
  forall_byte (by decide +kernel)

theorem or_low (h m : Nat) {l : Nat} (hl : l < 16) : 16 * h ||| (16 * m + l) = 16 * (h ||| m) + l := by
  have hshift : ∀ n, 16 * n = n <<< 4 := fun n => by rw [Nat.shiftLeft_eq, Nat.mul_comm]
  have hor : ∀ n, n <<< 4 + l = n <<< 4 ||| l := fun n => Nat.shiftLeft_add_eq_or_of_lt hl n
  rw [hshift, hshift, hshift, hor, hor, ← Nat.or_assoc, Nat.shiftLeft_or_distrib]

/-- The values that have the bit that a small letter leaves. -/
def hiders : List Nat := [2, 3, 6, 7, 10, 11, 14, 15]

theorem hides_iff : ∀ h < 16, (h ||| 2 = h ↔ h ∈ hiders) := by decide

theorem escaped_eq_iff {x y : UInt8} (hx : isDigit 16 x = true) (hy : isDigit 16 y = true) :
    escaped x y = UInt8.ofNat (16 * digitVal x + digitVal y) ↔ (97 ≤ y → digitVal x ∈ hiders) := by
  have hhigh : digitVal x < 16 := of_decide_eq_true hx
  have hlow : digitVal y < 16 := of_decide_eq_true hy
  rw [escaped, (digit_places x hx).1, (digit_places y hy).2, ← UInt8.ofNat_or, or_low _ _ hlow]
  by_cases hsmall : 97 ≤ y
  · have hbits : digitVal x ||| 2 < 2 ^ 4 := Nat.or_lt_two_pow hhigh (by decide)
    rw [if_pos hsmall, forall_prop_of_true hsmall, ← hides_iff _ hhigh, UInt8.ofNat_eq_iff_mod_eq_toNat,
      UInt8.toNat_ofNat']
    omega
  · rw [if_neg hsmall, Nat.or_zero]
    exact iff_of_true rfl fun h => absurd h hsmall

/-! ## The round trip -/

theorem unreserved_free : ∀ c, unreserved c = true →
    c ≠ 37 ∧ unplus c = c ∧ c ≠ 38 ∧ c ≠ 61 ∧ c ≠ 63 ∧ isPrint c = true :=
  forall_byte (by decide +kernel)

theorem hexLookup_digit : ∀ n < 16, isDigit 16 (hexLookup.getD n 0) = true ∧ digitVal (hexLookup.getD n 0) = n ∧
    ¬ 97 ≤ hexLookup.getD n 0 ∧ hexLookup.getD n 0 ≠ 38 ∧ hexLookup.getD n 0 ≠ 61 ∧ hexLookup.getD n 0 ≠ 63 ∧
    isPrint (hexLookup.getD n 0) = true := by
  decide

theorem high_nibble (c : UInt8) : (c.toNat &&& 0xF0) >>> 4 = c.toNat / 16 := by
  have hc := c.toNat_lt
  rw [Nat.shiftRight_and_distrib, show (0xF0 : Nat) >>> 4 = 2 ^ 4 - 1 from rfl, Nat.and_two_pow_sub_one_eq_mod,
    Nat.shiftRight_eq_div_pow]
  omega

theorem low_nibble (c : UInt8) : c.toNat &&& 0x0F = c.toNat % 16 := Nat.and_two_pow_sub_one_eq_mod _ 4

/-- A code is a character that stands for itself, the `+`, or an escape of upper-case digits. -/
theorem encodeChar_cases (c : UInt8) :
    (∃ d, encodeChar c = [d] ∧ d ≠ 37 ∧ unplus d = c) ∨ ∃ x y, encodeChar c = [37, x, y] ∧ escaped x y = c := by
  by_cases hfree : unreserved c = true
  · left
    obtain ⟨hne, hplus, -⟩ := unreserved_free c hfree
    exact ⟨c, by rw [encodeChar, if_pos hfree], hne, hplus⟩
  · by_cases hspace : c = SP
    · left
      exact ⟨43, by rw [encodeChar, if_neg hfree, if_pos hspace]; rfl, by decide, by rw [hspace]; rfl⟩
    · right
      have hc := c.toNat_lt
      obtain ⟨hx, hhigh, -⟩ := hexLookup_digit (c.toNat / 16) (by omega)
      obtain ⟨hy, hlow, hupper, -⟩ := hexLookup_digit (c.toNat % 16) (by omega)
      refine ⟨_, _, by rw [encodeChar, if_neg hfree, if_neg hspace], ?_⟩
      rw [high_nibble, low_nibble, (escaped_eq_iff hx hy).mpr fun hsmall => absurd hsmall hupper, hhigh, hlow,
        Nat.div_add_mod, UInt8.ofNat_toNat]

theorem urlDecode_encodeChar (c : UInt8) (s : Bytes) : urlDecode (encodeChar c ++ s) = c :: urlDecode s := by
  rcases encodeChar_cases c with ⟨d, hcode, hne, hd⟩ | ⟨x, y, hcode, hc⟩
  · rw [hcode, List.singleton_append, urlDecode_plain hne, hd]
  · rw [hcode]
    change urlDecode (37 :: x :: y :: s) = _
    rw [urlDecode_escape, hc]

theorem urlDecode_urlEncode (str : Bytes) : urlDecode (urlEncode str) = str := by
  induction str with
  | nil => rfl
  | cons c str ih =>
    rw [urlEncode, List.flatMap_cons, urlDecode_encodeChar]
    exact congrArg (c :: ·) ih

/-- No `&`, no `=`, no `?`, and nothing that is not printable. -/
theorem urlEncode_free (str : Bytes) : ∀ b ∈ urlEncode str, b ≠ 38 ∧ b ≠ 61 ∧ b ≠ 63 ∧ isPrint b = true := by
  intro b hb
  obtain ⟨c, -, hc⟩ := List.mem_flatMap.mp hb
  unfold encodeChar at hc
  by_cases hfree : unreserved c = true
  · rw [if_pos hfree, List.mem_singleton] at hc
    exact hc ▸ (unreserved_free c hfree).2.2
  · rw [if_neg hfree] at hc
    split at hc
    · obtain rfl : b = 43 := List.mem_singleton.mp hc
      decide
    · have hbound := c.toNat_lt
      rw [high_nibble, low_nibble] at hc
      rcases List.mem_cons.mp hc with rfl | hc
      · decide
      · rcases List.mem_cons.mp hc with rfl | hc
        · exact (hexLookup_digit _ (by omega)).2.2.2
        · rw [List.mem_singleton.mp hc]
          exact (hexLookup_digit _ (by omega)).2.2.2

def encodeEntry (c : Entry) : Entry := ⟨urlEncode c.1, urlEncode c.2⟩
def decodeEntry (c : Entry) : Entry := ⟨urlDecode c.1, urlDecode c.2⟩

theorem decodeEntry_encodeEntry (c : Entry) : decodeEntry (encodeEntry c) = c := by
  rw [decodeEntry, encodeEntry]
  simp only [urlDecode_urlEncode]

theorem encodeEntry_argument (c : Entry) : Argument (encodeEntry c) := by
  have hfree : ∀ s b, b ∈ urlEncode s → b ≠ 38 ∧ b ≠ 61 ∧ b ≠ 63 ∧ isPrint b = true := urlEncode_free
  refine ⟨?_, ?_, ?_, ?_⟩
  · exact fun h => (hfree _ _ h).2.1 rfl
  · exact fun h => (hfree _ _ h).1 rfl
  · exact fun h => (hfree _ _ h).1 rfl
  · exact fun b hb => (hfree _ b hb).2.2.2

/-- The first character of the joined arguments is no `?`. -/
theorem joined_head (c : Entry) (args : List Entry) :
    (HttpRequest.joinArguments ((c :: args).map encodeEntry)).head? ≠ some 63 := by
  intro hhead
  have hjoin : ∃ t, HttpRequest.joinArguments ((c :: args).map encodeEntry) = urlEncode c.1 ++ 61 :: t := by
    cases args with
    | nil => exact ⟨_, joinArguments_one _⟩
    | cons d args => exact ⟨_, by rw [List.map_cons, List.map_cons, joinArguments_cons]; rfl⟩
  obtain ⟨t, ht⟩ := hjoin
  rw [ht] at hhead
  cases hk : urlEncode c.1 with
  | nil =>
    rw [hk] at hhead
    cases hhead
  | cons b k =>
    rw [hk] at hhead
    cases hhead
    exact (urlEncode_free c.1 63 (by rw [hk]; exact List.mem_cons_self)).2.2.1 rfl

theorem codec_round_trip (args : List Entry) :
    (parseArgumentList (HttpRequest.joinArguments (args.map encodeEntry))).map (·.map decodeEntry) = some args := by
  cases args with
  | nil => rfl
  | cons c args =>
    have hargument : ∀ a ∈ (c :: args).map encodeEntry, Argument a := by
      intro a ha
      obtain ⟨d, -, rfl⟩ := List.mem_map.mp ha
      exact encodeEntry_argument d
    have hread := parseArgumentsFrom_join (encodeEntry c) (args.map encodeEntry) hargument []
    rw [List.nil_append, ← List.map_cons] at hread
    rw [parseArgumentList_eq, if_neg (joined_head c args), arguments_of_some hread, Option.map_some,
      List.map_map]
    congr 1
    calc (c :: args).map (decodeEntry ∘ encodeEntry) = (c :: args).map id :=
          List.map_congr_left fun d _ => decodeEntry_encodeEntry d
      _ = c :: args := List.map_id _

/-! ## Escapes in either case -/

/-- Behind a small letter's escape the first digit hides the bit. -/
def Hidden (s : Bytes) : Prop := ∀ x y, [37, x, y] <:+: s → 97 ≤ y → digitVal x ∈ hiders

theorem hidden_plain {c : UInt8} (h : c ≠ 37) {s : Bytes} : Hidden (c :: s) ↔ Hidden s := by
  unfold Hidden
  simp only [escape_plain h]

theorem hidden_escape {x y : UInt8} (hx : isDigit 16 x = true) (hy : isDigit 16 y = true) {s : Bytes} :
    Hidden (37 :: x :: y :: s) ↔ (97 ≤ y → digitVal x ∈ hiders) ∧ Hidden s := by
  unfold Hidden
  simp only [escape_escape hx hy]
  constructor
  · intro h
    exact ⟨h x y (.inl ⟨rfl, rfl⟩), fun a b hab => h a b (.inr hab)⟩
  · rintro ⟨hfirst, hrest⟩ a b (⟨rfl, rfl⟩ | hab)
    · exact hfirst
    · exact hrest a b hab

theorem urlDecode_iff {str : Bytes} (h : Digits str) : urlDecode str = percentDecode str ↔ Hidden str := by
  induction escaped_iff.mpr h with
  | nil => exact iff_of_true rfl fun x y hxy => absurd hxy (by simp)
  | plain hc hs ih =>
    rw [urlDecode_plain hc, percentDecode_plain hc, hidden_plain hc, List.cons.injEq]
    simp only [true_and]
    exact ih (escaped_iff.mp hs)
  | escape hx hy hs ih =>
    rw [urlDecode_escape, percentDecode_escape hx hy, hidden_escape hx hy, List.cons.injEq, escaped_eq_iff hx hy,
      ih (escaped_iff.mp hs)]

/-- With two digits behind every `%` it is the standard decoder exactly where no small letter stands
    second behind a digit that does not hide its bit; where none does, digits of the other case
    are read the same. -/
theorem urlDecode_standard {str : Bytes} (h : Digits str) :
    (urlDecode str = percentDecode str ↔ Hidden str) ∧
      ∀ str', Recased str str' → Hidden str → Hidden str' → urlDecode str = urlDecode str' := by
  refine ⟨urlDecode_iff h, ?_⟩
  intro str' hcase hhidden hhidden'
  calc urlDecode str = percentDecode str := (urlDecode_iff h).mpr hhidden
    _ = percentDecode str' := percentDecode_recased hcase
    _ = urlDecode str' := ((urlDecode_iff (escaped_iff.mp hcase.escaped)).mpr hhidden').symm

theorem urlDecode_standard_sample :
    (urlDecode (bytes "a+%6ab") = percentDecode (bytes "a+%6ab") ↔ Hidden (bytes "a+%6ab")) ∧
      ∀ str', Recased (bytes "a+%6ab") str' → Hidden (bytes "a+%6ab") → Hidden str' →
        urlDecode (bytes "a+%6ab") = urlDecode str' := by
  apply urlDecode_standard
  apply escaped_iff.mp
  apply Escaped.plain (by decide)
  apply Escaped.plain (by decide)
  apply Escaped.escape (by decide) (by decide)
  exact .plain (by decide) .nil

/-- A line end whose escape is written with a small letter is read as `*`. -/
theorem urlDecode_standard_not :
    Digits (bytes "%0a") ∧ urlDecode (bytes "%0a") = bytes "*" ∧ percentDecode (bytes "%0a") = [LF] := by
  refine ⟨?_, by decide, by decide⟩
  apply escaped_iff.mp
  exact .escape (by decide) (by decide) .nil

end Frnetlib.Http
