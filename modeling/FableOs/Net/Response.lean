import FableOs.Dvm.OpTable
import FableOs.Net.Fetch

namespace fable.net

/-! `fetch` from the exchange on, and the words of its refusals. -/

open Lines List
open fable.dvm (text_of snprintf)
open fable.json (cstr_t)

section Refusals

inductive fetch_error_t where
  | EINVAL | ENOSPC | EURL | ESCHEME | EDNS | ECONNECT | ETLS | ETIMEOUT | EPROTO | ENOBACKEND | ESECRET | EPOLICY

def fetch_error_t.rc : fetch_error_t → Int64
  | EINVAL => -22
  | ENOSPC => -28
  | EURL => -140
  | ESCHEME => -141
  | EDNS => -142
  | ECONNECT => -143
  | ETLS => -144
  | ETIMEOUT => -145
  | EPROTO => -146
  | ENOBACKEND => -147
  | ESECRET => -148
  | EPOLICY => -149

def fetch_strerror : fetch_error_t → String
  | .EINVAL => "bad arguments"
  | .ENOSPC => "did not fit"
  | .EURL => "the URL did not parse"
  | .ESCHEME => "unsupported scheme"
  | .EDNS => "the hostname did not resolve"
  | .ECONNECT => "the connection was refused or never answered"
  | .ETLS => "the TLS handshake failed"
  | .ETIMEOUT => "timed out"
  | .EPROTO => "the reply was not intelligible HTTP"
  | .ENOBACKEND => "no network backend"
  | .ESECRET => "refused: the request carried a credential"
  | .EPOLICY => "refused by policy"

def whyf (text : String) : String := snprintf 224 text

/-- A byte as `%x` prints it. -/
def hex (c : UInt8) : String := String.ofList (Nat.toDigits 16 c.toNat)

def url_why_t.refusal : url_why_t → fetch_error_t × String
  | empty => (.EURL, "the URL is empty")
  | too_long len => (.EURL, whyf s!"the URL is {len} bytes; the limit is {FETCH_URL_MAX}")
  | byte c off => (.EURL, whyf
      s!"the URL contains byte 0x{hex c} at offset {off}; a URL must be printable ASCII with no spaces, control bytes or non-ASCII. Percent-encode it.")
  | no_scheme => (.ESCHEME,
      "no scheme: the URL must start with http:// or https://. This kernel will not guess which, because the difference is whether the traffic is encrypted.")
  | scheme s => (.ESCHEME, whyf s!"scheme \"{text_of s}\" is not supported; only http and https are.")
  | ipv6 => (.EURL,
      "IPv6 literals are not supported: this kernel's lwIP build is IPv4-only. Use an IPv4 address or a name with an A record.")
  | userinfo => (.EPOLICY,
      "userinfo (\"user:pass@host\") in a URL is refused: it is a credential in a field this kernel would put on the wire and in a log. Use a header instead.")
  | port_missing => (.EURL, "the URL ends with ':' but names no port")
  | port_too_long => (.EURL, "the port has more than five digits; the maximum is 65535")
  | port_not_number s => (.EURL, whyf s!"port \"{text_of s}\" is not a number")
  | port_range v => (.EURL, whyf s!"port {v} is outside 1..65535")
  | host_empty => (.EURL, "the host part of the URL is empty")
  | host_too_long len => (.EURL, whyf s!"host is {len} bytes; DNS names stop at 253")
  | host_room => (.ENOSPC, "host does not fit this kernel's host buffer")
  | empty_label => (.EURL, "host has an empty label (\"..\" or a leading dot)")
  | trailing_dot => (.EURL, "host has an empty label (\"..\" or a trailing dot)")
  | host_byte c off => (.EURL, whyf
      s!"host contains byte 0x{hex c} at offset {off}; only letters, digits, '-', '_' and '.' are allowed")
  | label_too_long => (.EURL, "host has a label longer than 63 bytes")
  | path_too_long len => (.ENOSPC, whyf s!"the path+query is {len} bytes; the limit is {FETCH_PATH_MAX - 1}")

def fetch_why_t.refusal (opt : fetch_options_t) : fetch_why_t → fetch_error_t × String
  | url why => why.refusal
  | method => (.EINVAL, whyf
      s!"method \"{text_of (text_or [0x3F] opt.method)}\" is not allowed; use one of GET, HEAD, POST, PUT, PATCH, DELETE, OPTIONS.")
  | body_too_long len => (.ENOSPC, whyf s!"the request body is {len} bytes; the limit is {FETCH_BODY_MAX}")
  | accept => (.EINVAL, "the Accept value contains a control byte or is too long")
  | content_type => (.EINVAL, "the Content-Type value contains a control byte or is too long")
  | no_backend => (.ENOBACKEND,
      "this machine has no network backend bound: either no supported NIC was found at boot or net_init() failed. Call net_status for which.")
  | no_link => (.ECONNECT,
      "there is no usable network link on this machine, so no name can be looked up at all. Call net_status.")
  | not_resolved host timeout_ms => (.EDNS, whyf
      s!"could not resolve \"{text_of host}\": no answer from the DNS server within {timeout_ms} ms. The name may not exist, or the resolver may be unreachable — net_status shows which server is configured.")
  | request_room => (.ENOSPC,
      "the assembled request did not fit this kernel's request buffer — shorten the URL or the body")
  | live_key => (.ESECRET,
      "REFUSED: this request contains this machine's Anthropic API key. The key is a secret held in RAM for the model transport only and must never be sent anywhere else. Nothing was transmitted.")
  | key_shaped => (.ESECRET,
      "REFUSED: this request contains an Anthropic-shaped credential (an \"sk-ant-\" token). No fetch from this machine has any reason to carry one. Nothing was transmitted.")

/-- The address and the reason of an exchange that failed. -/
def exchange_text (url : text_t) (c : fetch_conn_t) (why : String) : String :=
  match fetch_url_parse url with
  | .ok u =>
    let scheme := if u.https then "https" else "http"
    whyf s!"{scheme}://{text_of u.host}:{u.port} ({text_of c.ip}): {why}"
  | .error _ => why

theorem fetch_error_t.rc_neg (e : fetch_error_t) : e.rc < 0 := by
  cases e <;> decide

end Refusals

section Response

variable {σ : Type}

/-- What `exchange` reports: how it ended, with the driver's own reason if it
    has one, and every byte that the peer has sent. -/
structure fetch_wire_t where
  rc : Except (fetch_error_t × String) Unit
  received : List UInt8

/-- What arrives is stored as long as a byte for the terminator is left. -/
def recv_cb (rx_cap : Nat) (received : List UInt8) : List UInt8 := received.take (min rx_cap 0x7FFFFFFF - 1)

structure fetch_result_t where
  http_status : Nat
  body : List UInt8
  deriving DecidableEq

/-- The status is the three digits after the first space of the first line. A
    response without an end of its headers has no body. -/
def fetch_split_response (buf : List UInt8) : Option fetch_result_t :=
  match find_bytes buf CRLF false with
  | none => none
  | some eol =>
    let digits := (((buf.take eol).dropWhile (· ≠ 0x20)).drop 1).takeWhile digit
    if digits.length ≠ 3 then none
    else
      some ⟨digits.foldl (fun code c => code * 10 + (c.toNat - 0x30)) 0,
        match find_bytes buf (CRLF ++ CRLF) false with
        | some hdr => buf.drop (hdr + 4)
        | none => []⟩

/-- `fetch` into a buffer, with the bytes that it leaves at the front: the body
    has been moved there and a NUL put behind it, over what had arrived. -/
def fetch_into (key : Option cstr_t) (b : backend_t) (exchange : σ → fetch_conn_t → fetch_wire_t × σ) (ctx : σ)
    (url : text_t) (opt : fetch_options_t) (cap : Nat) :
    Except (fetch_error_t × String) fetch_result_t × List UInt8 × σ :=
  if cap < 256 then (.error (.EINVAL, "internal: response buffer too small"), [], ctx)
  else
    match (fetch key b url opt).2 with
    | .error why => (.error (why.refusal opt), [0], ctx)
    | .ok c =>
      let (w, ctx) := exchange ctx c
      let rx := recv_cb cap w.received
      match w.rc with
      | .error (e, err) =>
        (.error (e, exchange_text url c (if err = "" then fetch_strerror e else err)), if rx = [] then [0] else rx, ctx)
      | .ok _ =>
        match fetch_split_response rx with
        | none =>
          (.error (.EPROTO,
            if rx = [] then "the peer accepted the connection and then closed it without sending a single byte"
            else whyf s!"the peer sent {rx.length} bytes that are not an HTTP response (no status line, or a malformed one)"),
            rx ++ [0], ctx)
        | some res => (.ok res, res.body ++ 0 :: (rx ++ [0]).drop (res.body.length + 1), ctx)

theorem find_bytes_eq_some {hay needle : text_t} {ci : Bool} {i : Nat} (hne : needle ≠ [])
    (hbefore : (range i).all (fun j => !(needle.map (fold ci)).isPrefixOf ((hay.drop j).map (fold ci))) = true)
    (hhere : (needle.map (fold ci)).isPrefixOf ((hay.drop i).map (fold ci)) = true) :
    find_bytes hay needle ci = some i := by
  have hlen := (List.isPrefixOf_iff_prefix.mp hhere).length_le
  have hpos := length_pos_iff.mpr hne
  rw [length_map, length_map, length_drop] at hlen
  rw [find_bytes, if_neg hne, find?_range_eq_some]
  refine ⟨hhere, mem_range.mpr (by omega), fun j hj => ?_⟩
  exact all_eq_true.mp hbefore j (mem_range.mpr hj)

theorem fetch_split_response_spec {buf res} (h : fetch_split_response buf = some res) :
    res.body.length < buf.length ∧ res.http_status < 2 ^ 63 := by
  unfold fetch_split_response at h
  split at h
  · cases h
  rename_i eol heol
  dsimp only at h
  split_ifs at h with hdigits
  obtain ⟨a, b, c, habc⟩ := length_eq_three.mp (not_not.mp hdigits)
  have hpos : 0 < buf.length := by
    by_contra hnone
    rw [length_eq_zero_iff.mp (by omega : buf.length = 0)] at heol
    cases heol
  cases h
  constructor
  · dsimp only
    split
    · rw [length_drop]
      omega
    · exact hpos
  · rw [habc]
    have ha := a.toNat_lt
    have hb := b.toNat_lt
    have hc := c.toNat_lt
    simp only [foldl_cons, foldl_nil]
    omega

end Response

end fable.net
