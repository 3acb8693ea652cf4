/-
  Frnetlib.Http.Message — a whole message, a header block and a body of the announced
  length, fed to a fresh parser in pieces.

  However the message is cut, every piece but the last is answered NotEnoughData and
  the last Success, and the object is the one the header lines give, with the body
  (`HttpRequest.feed_message`, `HttpResponse.feed_message`). The handshake and the
  round trips only have to say what the lines are.
-/

import Frnetlib.Base.Feed
import Frnetlib.Http.HeaderBlock
import Frnetlib.Http.Incremental
import Frnetlib.Http.PostBody

namespace Frnetlib

open Base

/-! ## Methods -/

namespace Http

/-- A prefix of a text that starts with a method is not refused. -/
theorem stringToRequestType_cut {t : RequestType} (ht : t ∈ methods) {u s : Bytes} (hs : requestTypeToString t <+: s)
    (hu : u <+: s) (hne : u ≠ []) : stringToRequestType u ≠ .unknown := by
  have hlong : requestTypeToString t <+: u → stringToRequestType u ≠ .unknown := fun hp => by
    rw [stringToRequestType_method ht hp]
    revert ht; cases t <;> decide
  rcases List.prefix_or_prefix_of_prefix hs hu with hp | hp
  · exact hlong hp
  · have key : ∀ t ∈ methods, ∀ k ≤ 6, (requestTypeToString t).take k ≠ [] →
        stringToRequestType ((requestTypeToString t).take k) ≠ .unknown := by decide
    have hle := hp.length_le.trans (method_length_le ht)
    rw [List.prefix_iff_eq_take] at hp
    rw [hp] at hne ⊢
    exact key t ht _ hle hne

end Http

/-! ## Requests -/

namespace HttpRequest

/-- Text that starts with a method is not refused, and neither is a prefix of it. -/
theorem method_known {head u v : Bytes} {t : RequestType} (ht : t ∈ Http.methods) (hmethod : Http.requestTypeToString t <+: head)
    (hu : u <+: head ++ v) : ¬ (u ≠ [] ∧ Http.stringToRequestType u = .unknown) :=
  fun h => Http.stringToRequestType_cut ht (hmethod.trans (List.prefix_append _ _)) hu h.1 h.2

/-- What comes after the header is read as the body. -/
theorem parse_head {head : Bytes} {r : HttpRequest} {t : RequestType} (hclosed : Http.Closed head) (ht : t ∈ Http.methods)
    (hmethod : Http.requestTypeToString t <+: head) (hread : readHead (head.take (head.length - 4)) = (true, r))
    (hsize : head.length ≤ maxHttpHeaderSize + 4) (v : Bytes) : parse fresh (head ++ v) = parseBody { r with body := v } := by
  have hlen := hclosed.length
  rw [parse_fresh, if_neg (method_known ht hmethod List.prefix_rfl), hclosed.headerEnd]
  simp only
  rw [if_neg (by omega), List.take_append_of_le_length (by omega), hread]
  simp only
  rw [List.drop_left' (by omega)]

theorem parse_head_long {head : Bytes} {t : RequestType} (hclosed : Http.Closed head) (ht : t ∈ Http.methods)
    (hmethod : Http.requestTypeToString t <+: head) (hsize : maxHttpHeaderSize + 4 < head.length) (v : Bytes) :
    (parse fresh (head ++ v)).1 = some .httpHeaderTooBig := by
  rw [parse_fresh, if_neg (method_known ht hmethod List.prefix_rfl), hclosed.headerEnd]
  simp only
  rw [if_pos (by omega)]

/-- Within the header there is not enough data. -/
theorem parse_head_cut {head u : Bytes} {t : RequestType} (ht : t ∈ Http.methods)
    (hmethod : Http.requestTypeToString t <+: head) (hsize : head.length ≤ maxHttpHeaderSize) (hu : u <+: head)
    (hnone : Http.headerEnd u = none) : (parse fresh u).1 = some .notEnoughData := by
  have hle := hu.length_le
  rw [parse_fresh, if_neg (method_known (v := []) ht hmethod (by rwa [List.append_nil])), hnone]
  simp only
  rw [if_neg (by omega)]

theorem block_method {line : Bytes} {lines : List Bytes} {t : RequestType} (hline : Http.requestTypeToString t <+: line) :
    Http.requestTypeToString t <+: Http.block (line :: lines) := by
  rw [Http.block_cons]
  exact hline.trans (List.prefix_append _ _)

theorem parse_block {line : Bytes} {lines : List Bytes} {r : HttpRequest} {t : RequestType}
    (hlines : ∀ l ∈ line :: lines, Http.Plain l) (ht : t ∈ Http.methods) (hline : Http.requestTypeToString t <+: line)
    (hread : readHeader { fresh with headerEnded := true } (Http.received (line :: lines)) = (true, r))
    (hsize : (Http.block (line :: lines)).length ≤ maxHttpHeaderSize) (v : Bytes) :
    parse fresh (Http.block (line :: lines) ++ v) = parseBody { r with body := v } := by
  refine parse_head (Http.block_closed (Http.Plain.lines hlines)) ht (block_method hline) ?_ (by omega) v
  have hsplit := Http.splitString_block (Http.Plain.lines hlines) []
  rw [List.append_nil] at hsplit
  rw [readHead, hsplit, hread]

theorem parse_block_cut {line : Bytes} {lines : List Bytes} {t : RequestType} (ht : t ∈ Http.methods)
    (hline : Http.requestTypeToString t <+: line) (hsize : (Http.block (line :: lines)).length ≤ maxHttpHeaderSize)
    {u : Bytes} (hu : u <+: Http.block (line :: lines)) (hnone : Http.headerEnd u = none) :
    (parse fresh u).1 = some .notEnoughData :=
  parse_head_cut ht (block_method hline) hsize hu hnone

/-- A header block that is read as `r`, and the body it announces, in any pieces. -/
theorem feed_message {line : Bytes} {lines : List Bytes} {body : Bytes} {r : HttpRequest} {t : RequestType}
    (hlines : ∀ l ∈ line :: lines, Http.Plain l) (ht : t ∈ Http.methods) (hline : Http.requestTypeToString t <+: line)
    (hread : readHeader { fresh with headerEnded := true } (Http.received (line :: lines)) = (true, r))
    (hlength : r.contentLength = body.length) (hsize : (Http.block (line :: lines)).length ≤ maxHttpHeaderSize)
    (hbody : body.length ≤ maxHttpBodySize) {ps : List Bytes} (hne : ∀ p ∈ ps, p ≠ [])
    (hps : ps.flatten = Http.block (line :: lines) ++ body) :
    ∃ post, feed parse fresh ps = (List.replicate (ps.length - 1) (some .notEnoughData) ++ [some .success],
      { r with body := body, postData := post }) := by
  have hwhole := parse_block hlines ht hline hread hsize
  have hpre : ∀ u, u <+: Http.block (line :: lines) ++ body → u ≠ Http.block (line :: lines) ++ body →
      (parse fresh u).1 = some .notEnoughData := by
    intro u hu hneu
    rcases (Http.block_closed (Http.Plain.lines hlines)).cut hu with ⟨hnone, hub, -⟩ | ⟨v, hv, rfl⟩
    · exact parse_block_cut ht hline hsize hub hnone
    · have hlt : v.length < body.length := prefix_length_lt hv fun heq => hneu (by rw [heq])
      rw [hwhole v]
      unfold parseBody
      simp only
      rw [if_neg (by omega), if_neg (by omega)]
  obtain ⟨post, hpost⟩ := parseBody_success (r := { r with body := body }) (by simp only; omega) hbody
  refine ⟨post, ?_⟩
  have habs : ∀ u p, u ++ p <+: Http.block (line :: lines) ++ body → (parse fresh u).1 = some .notEnoughData →
      parse (parse fresh u).2 p = parse fresh (u ++ p) :=
    fun u p hup hmore => parse_absorbs hmore ((Http.block_closed (Http.Plain.lines hlines)).stable hup)
  rw [feed_cut parse_nil hpre habs ps hne hps (List.append_ne_nil_of_left_ne_nil (Http.block_ne_nil line lines) body),
    hwhole body, hpost]

end HttpRequest

/-! ## Responses -/

namespace HttpResponse

theorem http_known {head : Bytes} (hstart : bytes "HTTP" <+: head) (v : Bytes) :
    ¬ (4 ≤ (head ++ v).length ∧ (head ++ v).take 4 ≠ bytes "HTTP") :=
  fun h => h.2 (List.prefix_iff_eq_take.mp (hstart.trans (List.prefix_append _ _))).symm

/-- What comes after the header is read as the body. -/
theorem parse_head {head : Bytes} {r : HttpResponse} (hclosed : Http.Closed head) (hstart : bytes "HTTP" <+: head)
    (hread : readHead (head.take (head.length - 4)) = (true, r)) (hsize : head.length ≤ maxHttpHeaderSize + 4) (v : Bytes) :
    parse fresh (head ++ v) = parseBody { r with body := v } := by
  have hlen := hclosed.length
  rw [parse_fresh, if_neg (http_known hstart v), hclosed.headerEnd]
  simp only
  rw [if_neg (by omega), List.take_append_of_le_length (by omega), hread]
  simp only
  rw [List.drop_left' (by omega)]

/-- What is no header of a response, or one that is too long, is refused. -/
theorem parse_head_refused {head : Bytes} (hclosed : Http.Closed head) (hstart : bytes "HTTP" <+: head)
    (h : maxHttpHeaderSize + 4 < head.length ∨ (readHead (head.take (head.length - 4))).1 = false) (v : Bytes) :
    (parse fresh (head ++ v)).1 ≠ some .success := by
  have hlen := hclosed.length
  rw [parse_fresh, if_neg (http_known hstart v), hclosed.headerEnd]
  simp only
  split
  · intro hsuccess
    cases hsuccess
  · rename_i hsize
    have hread := h.resolve_left (by omega)
    rw [List.take_append_of_le_length (by omega)]
    generalize readHead (head.take (head.length - 4)) = read at hread
    obtain ⟨ok, r⟩ := read
    have hread : ok = false := hread
    rw [hread]
    intro hsuccess
    cases hsuccess

theorem block_http {line : Bytes} (lines : List Bytes) (hline : bytes "HTTP" <+: line) :
    bytes "HTTP" <+: Http.block (line :: lines) := by
  rw [Http.block_cons]
  exact hline.trans (List.prefix_append _ _)

theorem parse_block {line : Bytes} {lines : List Bytes} {r : HttpResponse} (hlines : ∀ l ∈ line :: lines, Http.Plain l)
    (hline : bytes "HTTP" <+: line)
    (hread : readHeader { fresh with headerEnded := true } (Http.received (line :: lines)) = (true, r))
    (hsize : (Http.block (line :: lines)).length ≤ maxHttpHeaderSize) (v : Bytes) :
    parse fresh (Http.block (line :: lines) ++ v) = parseBody { r with body := v } := by
  refine parse_head (Http.block_closed (Http.Plain.lines hlines)) (block_http lines hline) ?_ (by omega) v
  have hsplit := Http.splitString_block (Http.Plain.lines hlines) []
  rw [List.append_nil] at hsplit
  rw [readHead, hsplit, hread]

/-- Within the header block there is not enough data. -/
theorem parse_block_cut {line : Bytes} {lines : List Bytes} (hline : bytes "HTTP" <+: line)
    (hsize : (Http.block (line :: lines)).length ≤ maxHttpHeaderSize) {u : Bytes} (hu : u <+: Http.block (line :: lines))
    (hnone : Http.headerEnd u = none) :
    (parse fresh u).1 = some .notEnoughData := by
  have hstart := block_http lines hline
  have htake : ¬ (4 ≤ u.length ∧ u.take 4 ≠ bytes "HTTP") := by
    intro hgiven
    obtain ⟨h4, hne⟩ := hgiven
    have hp : bytes "HTTP" <+: u := List.prefix_of_prefix_length_le hstart hu h4
    exact hne (List.prefix_iff_eq_take.mp hp).symm
  have := hu.length_le
  rw [parse_fresh, if_neg htake, hnone]
  simp only
  rw [if_neg (by omega)]

/-- A message whose raw body keeps within the limit absorbs every cut. -/
theorem parse_absorbs_block {line : Bytes} {lines : List Bytes} {body u p : Bytes} (hlines : ∀ l ∈ line :: lines, Http.Plain l)
    (hbody : body.length ≤ maxHttpBodySize) (hup : u ++ p <+: Http.block (line :: lines) ++ body)
    (hmore : (parse fresh u).1 = some .notEnoughData) : parse (parse fresh u).2 p = parse fresh (u ++ p) := by
  have hlen := Http.block_length line lines
  refine parse_absorbs hmore ((Http.block_closed (Http.Plain.lines hlines)).stable hup) fun e n he _ => Or.inr ?_
  rcases (Http.block_closed (Http.Plain.lines hlines)).cut ((List.prefix_append _ _).trans hup) with ⟨hnone, -, -⟩ | ⟨v, -, rfl⟩
  · rw [hnone] at he; cases he
  · rw [(Http.block_closed (Http.Plain.lines hlines)).headerEnd] at he
    cases he
    have := hup.length_le
    simp only [List.length_append] at this ⊢
    omega

/-- A header block that is read as `r`, and the body it announces, in any pieces. -/
theorem feed_message {line : Bytes} {lines : List Bytes} {body : Bytes} {r : HttpResponse}
    (hlines : ∀ l ∈ line :: lines, Http.Plain l) (hline : bytes "HTTP" <+: line)
    (hread : readHeader { fresh with headerEnded := true } (Http.received (line :: lines)) = (true, r))
    (hchunked : TransferEncoding.chunked ∉ r.transferEncodings) (hlength : r.contentLength = body.length)
    (hsize : (Http.block (line :: lines)).length ≤ maxHttpHeaderSize) (hbody : body.length ≤ maxHttpBodySize)
    {ps : List Bytes} (hne : ∀ p ∈ ps, p ≠ []) (hps : ps.flatten = Http.block (line :: lines) ++ body) :
    feed parse fresh ps = (List.replicate (ps.length - 1) (some .notEnoughData) ++ [some .success], { r with body := body }) := by
  have hwhole := parse_block hlines hline hread hsize
  have hpre : ∀ u, u <+: Http.block (line :: lines) ++ body → u ≠ Http.block (line :: lines) ++ body →
      (parse fresh u).1 = some .notEnoughData := by
    intro u hu hneu
    rcases (Http.block_closed (Http.Plain.lines hlines)).cut hu with ⟨hnone, hub, -⟩ | ⟨v, hv, rfl⟩
    · exact parse_block_cut hline hsize hub hnone
    · have hlt : v.length < body.length := prefix_length_lt hv fun heq => hneu (by rw [heq])
      rw [hwhole v]
      unfold parseBody
      simp only
      rw [if_neg (by omega), if_neg hchunked, if_neg (by omega), if_pos (by omega)]
  have hlast : parse fresh (Http.block (line :: lines) ++ body) = (some .success, { r with body := body }) := by
    rw [hwhole body]
    unfold parseBody
    simp only
    rw [if_neg (by omega), if_neg hchunked, if_neg (by omega), if_neg (by omega)]
  have habs := fun u p => parse_absorbs_block (u := u) (p := p) hlines hbody
  rw [feed_cut parse_nil hpre habs ps hne hps (List.append_ne_nil_of_left_ne_nil (Http.block_ne_nil line lines) body), hlast]

end HttpResponse

end Frnetlib
