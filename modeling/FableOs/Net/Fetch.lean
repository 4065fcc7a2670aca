import FableOs.Net.Url
import FableOs.Json.RoundTrip
import FableOs.Lib.Lines

namespace fable.net

/-! The request that `fetch` assembles and the guard in front of the wire. -/

open Lines List
open fable.json (cstr_t decimal)
open fable.sse (ascii)

abbrev FETCH_BODY_MAX : Nat := 4096
abbrev FETCH_REQ_MAX : Nat := 8192
abbrev FETCH_TIMEOUT_DEFAULT_MS : Nat := 15000
abbrev FETCH_TIMEOUT_MAX_MS : Nat := 60000
abbrev SECRET_MIN_LEN : Nat := 12

section Building

structure fetch_options_t where
  method : Option cstr_t
  accept : Option cstr_t
  content_type : Option cstr_t
  body : List UInt8
  timeout_ms : Nat

def METHODS : List text_t :=
  [ascii ['G', 'E', 'T'], ascii ['H', 'E', 'A', 'D'], ascii ['P', 'O', 'S', 'T'], ascii ['P', 'U', 'T'],
   ascii ['P', 'A', 'T', 'C', 'H'], ascii ['D', 'E', 'L', 'E', 'T', 'E'], ascii ['O', 'P', 'T', 'I', 'O', 'N', 'S']]

def text_or (default : text_t) : Option cstr_t → text_t
  | none => default
  | some s => if s.bytes = [] then default else s.bytes

/-- The method as it is sent; no method is GET. -/
def method_ok (m : Option cstr_t) : Option text_t :=
  if text_or [] m = [] then METHODS.head? else METHODS.find? fun a => a.map lc = (text_or [] m).map lc

/-- The appender: it stops at the first piece that does not fit. -/
structure app_t where
  b : List UInt8
  ok : Bool

def app_n (cap : Nat) (a : app_t) (s : List UInt8) : app_t :=
  if a.ok = false then a else if cap < a.b.length + s.length + 1 then { a with ok := false } else { a with b := a.b ++ s }

def SP : text_t := ascii [' ']
def VERSION : text_t := ascii ['H', 'T', 'T', 'P', '/', '1', '.', '0']
def HOST : text_t := ascii ['H', 'o', 's', 't', ':', ' ']
def USER_AGENT : text_t := ascii ['U', 's', 'e', 'r', '-', 'A', 'g', 'e', 'n', 't', ':', ' ', 'f', 'a', 'b', 'l', 'e', '-', '1',
  ' ', '(', 'b', 'a', 'r', 'e', '-', 'm', 'e', 't', 'a', 'l', ' ', 'k', 'e', 'r', 'n', 'e', 'l', ')']
def ACCEPT : text_t := ascii ['A', 'c', 'c', 'e', 'p', 't', ':', ' ']
def ANY : text_t := ascii ['*', '/', '*']
def CONNECTION : text_t := ascii ['C', 'o', 'n', 'n', 'e', 'c', 't', 'i', 'o', 'n', ':', ' ', 'c', 'l', 'o', 's', 'e']
def CONTENT_TYPE : text_t := ascii ['C', 'o', 'n', 't', 'e', 'n', 't', '-', 'T', 'y', 'p', 'e', ':', ' ']
def JSON_TYPE : text_t :=
  ascii ['a', 'p', 'p', 'l', 'i', 'c', 'a', 't', 'i', 'o', 'n', '/', 'j', 's', 'o', 'n']
def CONTENT_LENGTH : text_t := ascii ['C', 'o', 'n', 't', 'e', 'n', 't', '-', 'L', 'e', 'n', 'g', 't', 'h', ':', ' ']

/-- The port, where the request has to name it. -/
def port_suffix (u : fetch_url_t) : text_t :=
  if u.explicit_port = true ∧ u.port ≠ (if u.https then 443 else 80) then 0x3A :: decimal u.port else []

/-- The pieces of a request in the order of the `app_s` calls. -/
def pieces (m : text_t) (u : fetch_url_t) (opt : fetch_options_t) : List text_t :=
  [m, SP, u.path, SP ++ VERSION ++ CRLF ++ HOST, u.host, port_suffix u, CRLF ++ USER_AGENT ++ CRLF ++ ACCEPT,
    text_or ANY opt.accept, CRLF ++ CONNECTION ++ CRLF] ++
  (if opt.body = [] then []
    else [CONTENT_TYPE, text_or JSON_TYPE opt.content_type, CRLF ++ CONTENT_LENGTH, decimal opt.body.length, CRLF]) ++
  [CRLF] ++ (if opt.body = [] then [] else [opt.body])

def fetch_build_request (cap : Nat) (u : fetch_url_t) (opt : fetch_options_t) : Option (List UInt8) :=
  match method_ok opt.method with
  | none => none
  | some m =>
    if FETCH_BODY_MAX < opt.body.length then none
    else
      let a := (pieces m u opt).foldl (app_n cap) ⟨[], decide (0 < cap)⟩
      if a.ok then some a.b else none

end Building

section Fetching

/-- What the network backend offers. A name server answers with an address, or
    not. -/
structure backend_t where
  resolve : Option (text_t → Nat → Except Bool text_t)
  exchange : Bool

structure fetch_conn_t where
  ip : text_t
  port : Nat
  sni : Option text_t
  req : List UInt8
  timeout_ms : Nat
  deriving DecidableEq, Repr

/-- A call of one of the backend's hooks, with what it is handed. -/
inductive call_t where
  | resolve (host : text_t) (timeout_ms : Nat)
  | exchange (c : fetch_conn_t)
  deriving DecidableEq, Repr

inductive fetch_why_t where
  | url (why : url_why_t)
  | method
  | body_too_long (len : Nat)
  | accept
  | content_type
  | no_backend
  | no_link
  | not_resolved (host : text_t) (timeout_ms : Nat)
  | request_room
  | live_key
  | key_shaped
  deriving DecidableEq, Repr

/-- An option's text can be a header value; an option that was not given can. -/
def hdr_value_ok (v : Option cstr_t) (max : Nat) : Bool :=
  match v with
  | none => true
  | some s => s.bytes.length ≤ max && s.bytes.all hdr_byte_ok && s.bytes ≠ []

def SK_ANT : text_t := ascii ['s', 'k', '-', 'a', 'n', 't', '-']

/-- `key` is what the installed source returns. -/
def fetch_scan_secret (key : Option cstr_t) (buf : List UInt8) : Option fetch_why_t :=
  if buf = [] then none
  else if key.any fun k => SECRET_MIN_LEN ≤ k.bytes.length && (find_bytes buf k.bytes false).isSome then some .live_key
  else if (find_bytes buf SK_ANT true).isSome then some .key_shaped
  else none

def clamp_timeout (ms : Nat) : Nat :=
  if ms = 0 then FETCH_TIMEOUT_DEFAULT_MS else if FETCH_TIMEOUT_MAX_MS < ms then FETCH_TIMEOUT_MAX_MS else ms

/-- The checks that `fetch` makes before it calls anything. -/
def admitted (b : backend_t) (url : text_t) (opt : fetch_options_t) : Except fetch_why_t fetch_url_t := do
  let u ← (fetch_url_parse url).mapError .url
  refuse (method_ok opt.method = none) .method
  refuse (FETCH_BODY_MAX < opt.body.length) (.body_too_long opt.body.length)
  refuse (hdr_value_ok opt.accept 128 = false) .accept
  refuse (hdr_value_ok opt.content_type 128 = false) .content_type
  refuse (b.exchange = false) .no_backend
  return u

/-- The address of a host, and the calls made to find it. A literal address
    needs none. The backend's error says whether there is a link at all. -/
def resolve (b : backend_t) (u : fetch_url_t) (timeout_ms : Nat) : List call_t × Except fetch_why_t text_t :=
  if u.is_ip then ([], .ok u.host)
  else
    match b.resolve with
    | none => ([], .error .no_backend)
    | some hook =>
      ([.resolve u.host timeout_ms],
        match hook u.host timeout_ms with
        | .ok ip => .ok ip
        | .error linked => .error (if linked then .not_resolved u.host timeout_ms else .no_link))

/-- The request, if it may leave the machine. -/
def sealed (key : Option cstr_t) (u : fetch_url_t) (opt : fetch_options_t) : Except fetch_why_t (List UInt8) :=
  match fetch_build_request FETCH_REQ_MAX u opt with
  | none => .error .request_room
  | some req =>
    match fetch_scan_secret key req with
    | some why => .error why
    | none => .ok req

/-- `fetch` up to the exchange: the hooks it calls, in order, and the verdict
    or the connection that the exchange is given. -/
def fetch (key : Option cstr_t) (b : backend_t) (url : text_t) (opt : fetch_options_t) :
    List call_t × Except fetch_why_t fetch_conn_t :=
  match admitted b url opt with
  | .error why => ([], .error why)
  | .ok u =>
    let timeout_ms := clamp_timeout opt.timeout_ms
    match resolve b u timeout_ms with
    | (calls, .error why) => (calls, .error why)
    | (calls, .ok ip) =>
      match sealed key u opt with
      | .error why => (calls, .error why)
      | .ok req =>
        let c := ⟨ip, u.port, if u.https then some u.host else none, req, timeout_ms⟩
        (calls ++ [.exchange c], .ok c)

end Fetching

section Assembled

variable {u : fetch_url_t} {opt : fetch_options_t}

theorem app_n_stuck {cap : Nat} {a} (h : a.ok = false) (l : List text_t) : l.foldl (app_n cap) a = a := by
  induction l with
  | nil => rfl
  | cons s l ih => rw [foldl_cons, app_n, if_pos h, ih]

theorem app_n_spec {cap : Nat} {a} {l : List text_t} (h : (l.foldl (app_n cap) a).ok = true) :
    (l.foldl (app_n cap) a).b = a.b ++ l.flatten := by
  induction l generalizing a with
  | nil => simp
  | cons s l ih =>
    rw [foldl_cons] at h ⊢
    have hok : (app_n cap a s).ok = true := by
      by_contra hbad
      rw [app_n_stuck (by simpa using hbad)] at h
      exact hbad h
    have hb : (app_n cap a s).b = a.b ++ s := by
      unfold app_n at hok ⊢
      split_ifs at hok ⊢
      · simp_all
      · rfl
    rw [ih h, hb, append_assoc, flatten_cons]

/-- The lines of the head: the request line, then the header lines. -/
def head_lines (m : text_t) (u : fetch_url_t) (opt : fetch_options_t) : List text_t :=
  [m ++ (SP ++ (u.path ++ (SP ++ VERSION))), HOST ++ (u.host ++ port_suffix u), USER_AGENT, ACCEPT ++ text_or ANY opt.accept,
    CONNECTION] ++
  if opt.body = [] then []
  else [CONTENT_TYPE ++ text_or JSON_TYPE opt.content_type, CONTENT_LENGTH ++ decimal opt.body.length]

theorem pieces_flatten (m : text_t) (u : fetch_url_t) (opt : fetch_options_t) :
    (pieces m u opt).flatten = head_text (head_lines m u opt) ++ opt.body := by
  by_cases hbody : opt.body = []
  all_goals simp [pieces, head_lines, head_text, hbody]

theorem fetch_build_request_spec {cap : Nat} {req : List UInt8} (h : fetch_build_request cap u opt = some req) :
    ∃ m, method_ok opt.method = some m ∧ opt.body.length ≤ FETCH_BODY_MAX ∧
      req = head_text (head_lines m u opt) ++ opt.body := by
  unfold fetch_build_request at h
  cases hm : method_ok opt.method with
  | none => simp [hm] at h
  | some m =>
    simp only [hm] at h
    split_ifs at h with hbody hok
    refine ⟨m, rfl, Nat.le_of_not_lt hbody, ?_⟩
    rw [← Option.some.inj h, app_n_spec hok, pieces_flatten]
    rfl

/-- Bytes that can stand in a line. -/
def Plain (s : text_t) : Prop := ∀ c ∈ s, hdr_byte_ok c = true

instance (s : text_t) : Decidable (Plain s) := List.decidableBAll _ s

@[simp] theorem plain_append {s t} : Plain (s ++ t) ↔ Plain s ∧ Plain t := by
  simp [Plain, or_imp, forall_and]

theorem whole_of_plain {s} (h : Plain s) (hne : s ≠ []) : Whole s := by
  refine ⟨hne, fun hcr => ?_, fun hlf => ?_⟩
  · have hbad := h 0x0D hcr
    revert hbad
    decide
  · have hbad := h 0x0A hlf
    revert hbad
    decide

theorem plain_of_url_bytes {s} (h : ∀ c ∈ s, url_byte_ok c = true) : Plain s := by
  intro c hc
  have hok := h c hc
  simp only [url_byte_ok, hdr_byte_ok, Bool.and_eq_true, decide_eq_true_eq] at hok ⊢
  have hblank : (0x20 : UInt8) ≤ 0x21 := by decide
  exact ⟨UInt8.le_trans hblank hok.1, hok.2⟩

theorem plain_decimal {v : Nat} (hv : v < 10 ^ 20) : Plain (decimal v) := by
  intro c hc
  have hdigit := (json.decimal_spec hv).2.2.1 c hc
  simp only [json.is_digit, hdr_byte_ok, Bool.and_eq_true, decide_eq_true_eq] at hdigit ⊢
  have hblank : (0x20 : UInt8) ≤ 0x30 := by decide
  have htilde : (0x39 : UInt8) ≤ 0x7E := by decide
  exact ⟨UInt8.le_trans hblank hdigit.1, UInt8.le_trans hdigit.2 htilde⟩

theorem plain_text_or {default v} {max : Nat} (hdefault : Plain default) (h : hdr_value_ok v max = true) :
    Plain (text_or default v) := by
  cases v with
  | none => exact hdefault
  | some s =>
    simp only [hdr_value_ok, Bool.and_eq_true, all_eq_true] at h
    rw [text_or]
    split_ifs
    · exact hdefault
    · exact h.1.2

theorem method_ok_mem {m name} (h : method_ok m = some name) : name ∈ METHODS := by
  unfold method_ok at h
  split_ifs at h
  · exact mem_of_mem_head? h
  · exact mem_of_find?_eq_some h

theorem admitted_eq_ok_iff {b url} :
    admitted b url opt = .ok u ↔ fetch_url_parse url = .ok u ∧ method_ok opt.method ≠ none ∧
      opt.body.length ≤ FETCH_BODY_MAX ∧ hdr_value_ok opt.accept 128 = true ∧
      hdr_value_ok opt.content_type 128 = true ∧ b.exchange = true := by
  simp only [admitted, except_bind_eq_ok_iff, refuse_eq_ok_iff, Bool.not_eq_false, pure, Except.pure, Except.ok.injEq,
    exists_const, Nat.not_lt]
  constructor
  · rintro ⟨v, hurl, hmethod, hbody, haccept, htype, hexchange, rfl⟩
    exact ⟨mapError_eq_ok_iff.mp hurl, hmethod, hbody, haccept, htype, hexchange⟩
  · rintro ⟨hurl, hmethod, hbody, haccept, htype, hexchange⟩
    exact ⟨u, mapError_eq_ok_iff.mpr hurl, hmethod, hbody, haccept, htype, hexchange, rfl⟩

theorem whole_append {label value} (hlabel : Plain label) (hne : label ≠ []) (hvalue : Plain value) :
    Whole (label ++ value) :=
  whole_of_plain (plain_append.mpr ⟨hlabel, hvalue⟩) (append_ne_nil_of_left_ne_nil hne _)

/-- No byte of a request that was admitted can end a line of its head. -/
theorem whole_head_lines {b url m} (h : admitted b url opt = .ok u) (hm : m ∈ METHODS) :
    ∀ line ∈ head_lines m u opt, Whole line := by
  obtain ⟨hurl, -, hbody, haccept, htype, -⟩ := admitted_eq_ok_iff.mp h
  obtain ⟨hhost, -, hpath, hport⟩ := fetch_url_parse_spec hurl
  have hsuffix : Plain (port_suffix u) := by
    rw [port_suffix]
    by_cases hnamed : u.explicit_port = true ∧ u.port ≠ if u.https then 443 else 80
    · rw [if_pos hnamed]
      have hcolon : hdr_byte_ok 0x3A = true := by decide
      exact forall_mem_cons.mpr ⟨hcolon, plain_decimal (hport.trans_lt (by decide))⟩
    · rw [if_neg hnamed]
      decide
  have hmethod : ∀ m ∈ METHODS, Plain m ∧ m ≠ [] := by decide
  have hrequest : Whole (m ++ (SP ++ (u.path ++ (SP ++ VERSION)))) := by
    refine whole_append (hmethod m hm).1 (hmethod m hm).2 ?_
    simp only [plain_append]
    exact ⟨by decide, plain_of_url_bytes hpath, by decide, by decide⟩
  have hhostline : Whole (HOST ++ (u.host ++ port_suffix u)) :=
    whole_append (by decide) (by decide) (plain_append.mpr ⟨plain_of_url_bytes hhost, hsuffix⟩)
  have hacceptline : Whole (ACCEPT ++ text_or ANY opt.accept) :=
    whole_append (by decide) (by decide) (plain_text_or (by decide) haccept)
  have htypeline : Whole (CONTENT_TYPE ++ text_or JSON_TYPE opt.content_type) :=
    whole_append (by decide) (by decide) (plain_text_or (by decide) htype)
  have hsmall : opt.body.length < 10 ^ 20 := hbody.trans_lt (by decide)
  have hlengthline : Whole (CONTENT_LENGTH ++ decimal opt.body.length) :=
    whole_append (by decide) (by decide) (plain_decimal hsmall)
  have hagent : Whole USER_AGENT := whole_of_plain (by decide) (by decide)
  have hconnection : Whole CONNECTION := whole_of_plain (by decide) (by decide)
  unfold head_lines
  split
  · simp [hrequest, hhostline, hagent, hacceptline, hconnection]
  · simp [hrequest, hhostline, hagent, hacceptline, hconnection, htypeline, hlengthline]

end Assembled

section Wire

/-- The request holds the live key, or something shaped like one in any case. -/
def Secret (key : Option cstr_t) (req : List UInt8) : Prop :=
  (∃ k, key = some k ∧ SECRET_MIN_LEN ≤ k.bytes.length ∧ k.bytes <:+: req) ∨ SK_ANT.map lc <:+: req.map lc

theorem find_bytes_isSome_iff {hay needle : text_t} {ci : Bool} (hne : needle ≠ []) :
    (find_bytes hay needle ci).isSome = true ↔ needle.map (fold ci) <:+: hay.map (fold ci) := by
  rw [find_bytes, if_neg hne, find?_isSome]
  constructor
  · rintro ⟨i, -, hprefix⟩
    rw [List.isPrefixOf_iff_prefix, map_drop] at hprefix
    exact hprefix.isInfix.trans (drop_suffix _ _).isInfix
  · rintro ⟨front, back, hsplit⟩
    have hlen := congrArg length hsplit
    simp only [length_append, length_map] at hlen
    refine ⟨front.length, mem_range.mpr (by omega), ?_⟩
    rw [List.isPrefixOf_iff_prefix, map_drop, ← hsplit, append_assoc, drop_left]
    exact prefix_append _ _

/-- The guard finds every secret. -/
theorem scan_isSome_of_secret {key req} (h : Secret key req) : (fetch_scan_secret key req).isSome = true := by
  have hfold : fold true = lc := by
    funext c
    simp [fold]
  have hid : fold false = id := by
    funext c
    simp [fold]
  have hne : req ≠ [] := by
    rintro rfl
    obtain ⟨k, -, hlen, hin⟩ | hin := h
    · rw [infix_nil.mp hin] at hlen
      simp at hlen
    · exact absurd (infix_nil.mp hin) (by decide)
  rw [fetch_scan_secret, if_neg hne]
  split_ifs with hlive hshape
  · rfl
  · rfl
  · obtain ⟨k, rfl, hlen, hin⟩ | hin := h
    · refine absurd ?_ hlive
      have hk : k.bytes ≠ [] := by
        intro hnil
        simp [hnil] at hlen
      simp only [Option.any_some, Bool.and_eq_true, decide_eq_true_eq]
      refine ⟨hlen, (find_bytes_isSome_iff hk).mpr ?_⟩
      simpa [hid] using hin
    · refine absurd ((find_bytes_isSome_iff (by decide)).mpr ?_) hshape
      rwa [hfold]

variable {key : Option cstr_t} {b : backend_t} {url : text_t} {opt : fetch_options_t}

theorem not_exchange_of_resolve (b : backend_t) (u : fetch_url_t) (timeout_ms : Nat) (c : fetch_conn_t) :
    .exchange c ∉ (resolve b u timeout_ms).1 := by
  unfold resolve
  split
  · simp
  · split
    all_goals simp

/-- The exchange is the last hook that `fetch` calls, and what it is handed has
    passed every check. -/
theorem exchange_inv {c} (h : .exchange c ∈ (fetch key b url opt).1) :
    ∃ u, admitted b url opt = .ok u ∧ sealed key u opt = .ok c.req ∧
      (fetch key b url opt).1 = (resolve b u (clamp_timeout opt.timeout_ms)).1 ++ [.exchange c] := by
  unfold fetch at h ⊢
  cases hadm : admitted b url opt with
  | error why => simp [hadm] at h
  | ok u =>
    simp only [hadm] at h ⊢
    have hresolve := not_exchange_of_resolve b u (clamp_timeout opt.timeout_ms) c
    rcases hres : resolve b u (clamp_timeout opt.timeout_ms) with ⟨calls, answer⟩
    rw [hres] at h hresolve
    cases answer with
    | error why => exact absurd h hresolve
    | ok ip =>
      simp only at h ⊢
      cases hseal : sealed key u opt with
      | error why =>
        rw [hseal] at h
        exact absurd h hresolve
      | ok req =>
        rw [hseal] at h
        rcases mem_append.mp h with h | h
        · exact absurd h hresolve
        · have hc := call_t.exchange.inj (mem_singleton.mp h)
          exact ⟨u, rfl, by rw [hseal, hc], by rw [hc, hres]⟩

/-- Whatever the URL, the options and the body, the exchange is handed one
    HTTP/1.0 request: it reads back as one request line for the parsed path,
    the fixed header lines in their order, and exactly the body. -/
theorem fetch_sends_one_request {c : fetch_conn_t} (h : .exchange c ∈ (fetch key b url opt).1) :
    ∃ u m, fetch_url_parse url = .ok u ∧ m ∈ METHODS ∧ u.path.head? = some 0x2F ∧ 0x20 ∉ u.path ∧
      c.req = head_text (head_lines m u opt) ++ opt.body ∧ (∀ line ∈ head_lines m u opt, Whole line) ∧
      read_head [] c.req = some (head_lines m u opt, opt.body) ∧
      json.decimal_value 0 (decimal opt.body.length) = opt.body.length ∧
      ∃ before, (fetch key b url opt).1 = before ++ [.exchange c] ∧ ∀ c', .exchange c' ∉ before := by
  obtain ⟨u, hadm, hseal, hcalls⟩ := exchange_inv h
  obtain ⟨hurl, -, hbody, -⟩ := admitted_eq_ok_iff.mp hadm
  obtain ⟨-, hslash, hpath, -⟩ := fetch_url_parse_spec hurl
  have hbuild : fetch_build_request FETCH_REQ_MAX u opt = some c.req := by
    unfold sealed at hseal
    split at hseal
    · cases hseal
    · rename_i req hbuild
      split at hseal
      · cases hseal
      · rw [hbuild, Except.ok.inj hseal]
  obtain ⟨m, hm, -, hreq⟩ := fetch_build_request_spec hbuild
  have hwhole := whole_head_lines hadm (method_ok_mem hm)
  have hblank : 0x20 ∉ u.path := by
    intro hmem
    have hbad := hpath 0x20 hmem
    revert hbad
    decide
  refine ⟨u, m, hurl, method_ok_mem hm, hslash, hblank, hreq, hwhole, ?_, ?_, _, hcalls, fun c' =>
    not_exchange_of_resolve b u _ c'⟩
  · rw [hreq]
    exact read_head_text hwhole opt.body
  · exact (json.decimal_spec (hbody.trans_lt (by decide))).2.2.2.1

/-- No options: a GET without a body. -/
def no_options : fetch_options_t := ⟨none, none, none, [], 0⟩

def ROOT_URL : text_t := ascii ['h', 't', 't', 'p', ':', '/', '/', '1', '.', '2', '.', '3', '.', '4', '/']

theorem fetch_sends_one_request_root :
    ∃ c, .exchange c ∈ (fetch none ⟨none, true⟩ ROOT_URL no_options).1 ∧
      ∃ u m, fetch_url_parse ROOT_URL = .ok u ∧ m ∈ METHODS ∧ read_head [] c.req = some (head_lines m u no_options, []) := by
  have hsome : ((fetch none ⟨none, true⟩ ROOT_URL no_options).1.filterMap fun
    | .exchange c => some c
    | .resolve _ _ => none).length = 1 := by decide
  obtain ⟨c, hc⟩ := length_eq_one_iff.mp hsome
  obtain ⟨call, hcall, hexchange⟩ := mem_filterMap.mp (hc ▸ mem_singleton_self c)
  cases call with
  | resolve host ms => cases hexchange
  | exchange c' =>
    obtain ⟨u, m, hurl, hm, -, -, -, -, hread, -⟩ := fetch_sends_one_request hcall
    exact ⟨c', hcall, u, m, hurl, hm, hread⟩

/-- A request that holds a secret never reaches the exchange. The resolver is
    called first, though: no hook is called at all exactly when the host is a
    literal address or the fetch is refused before the name is looked up. -/
theorem secret_calls_no_hook_iff {u : fetch_url_t} {req : List UInt8} (hurl : fetch_url_parse url = .ok u)
    (hreq : fetch_build_request FETCH_REQ_MAX u opt = some req) (hsecret : Secret key req) :
    (∀ c, .exchange c ∉ (fetch key b url opt).1) ∧
    ((fetch key b url opt).1 = [] ↔ u.is_ip = true ∨ b.resolve = none ∨ b.exchange = false ∨
      hdr_value_ok opt.accept 128 = false ∨ hdr_value_ok opt.content_type 128 = false) := by
  obtain ⟨why, hwhy⟩ := Option.isSome_iff_exists.mp (scan_isSome_of_secret hsecret)
  have hseal : sealed key u opt = .error why := by simp [sealed, hreq, hwhy]
  have hmethod : method_ok opt.method ≠ none ∧ opt.body.length ≤ FETCH_BODY_MAX := by
    obtain ⟨m, hm, hbody, -⟩ := fetch_build_request_spec hreq
    exact ⟨by simp [hm], hbody⟩
  constructor
  · intro c hc
    obtain ⟨v, hadm, hsent, -⟩ := exchange_inv hc
    have huv : v = u := by
      have hv := (admitted_eq_ok_iff.mp hadm).1
      rw [hurl] at hv
      exact (Except.ok.inj hv).symm
    rw [huv, hseal] at hsent
    cases hsent
  · by_cases hhooks : hdr_value_ok opt.accept 128 = true ∧ hdr_value_ok opt.content_type 128 = true ∧ b.exchange = true
    · have hadm : admitted b url opt = .ok u :=
        admitted_eq_ok_iff.mpr ⟨hurl, hmethod.1, hmethod.2, hhooks⟩
      have hcalls : (fetch key b url opt).1 = (resolve b u (clamp_timeout opt.timeout_ms)).1 := by
        unfold fetch
        rw [hadm]
        simp only [hseal]
        split <;> rename_i heq <;> rw [heq]
      rw [hcalls, resolve]
      cases hip : u.is_ip with
      | true => simp
      | false => cases hres : b.resolve <;> simp [hhooks]
    · have hcalls : (fetch key b url opt).1 = [] := by
        unfold fetch
        cases hadm : admitted b url opt with
        | error e => rfl
        | ok v => exact absurd (admitted_eq_ok_iff.mp hadm).2.2.2 hhooks
      simp only [hcalls, true_iff]
      simp only [not_and_or, Bool.not_eq_true] at hhooks
      tauto

/-- A URL with a literal address and a key in its path. -/
def LITERAL_URL : text_t := ROOT_URL ++ SK_ANT

def literal_url : fetch_url_t := ⟨false, 80, false, true, ascii ['1', '.', '2', '.', '3', '.', '4'], 0x2F :: SK_ANT⟩

theorem secret_calls_no_hook_literal :
    (fetch none ⟨some fun _ _ => .error true, true⟩ LITERAL_URL no_options).1 = [] := by
  have hurl : fetch_url_parse LITERAL_URL = .ok literal_url := by decide
  have hreq : fetch_build_request FETCH_REQ_MAX literal_url no_options =
      some (head_text (head_lines (ascii ['G', 'E', 'T']) literal_url no_options)) := by decide
  have hfound : (find_bytes (head_text (head_lines (ascii ['G', 'E', 'T']) literal_url no_options)) SK_ANT true).isSome =
      true := by decide
  have hfold : fold true = lc := rfl
  have hsecret : Secret none (head_text (head_lines (ascii ['G', 'E', 'T']) literal_url no_options)) :=
    .inr (hfold ▸ (find_bytes_isSome_iff (by decide)).mp hfound)
  exact (secret_calls_no_hook_iff hurl hreq hsecret).2.mpr (.inl rfl)

/-- A key in the host part of a URL is handed to the resolver. -/
theorem secret_seen_by_resolver :
    (fetch none ⟨some fun _ _ => .error true, true⟩ (ascii ['h', 't', 't', 'p', ':', '/', '/'] ++ SK_ANT ++ ascii ['x'])
      no_options).1 = [.resolve (SK_ANT ++ ascii ['x']) FETCH_TIMEOUT_DEFAULT_MS] := by decide

end Wire

end fable.net
