import FableOs.Sse.Frame

namespace fable.net

/-! URLs as `net/fetch.c` takes them apart. -/

open List

open fable.sse (ascii)

abbrev text_t := List UInt8

abbrev FETCH_HOST_MAX : Nat := 256
abbrev FETCH_PATH_MAX : Nat := 1024
abbrev FETCH_URL_MAX : Nat := 2048

section Bytes

def lc (c : UInt8) : UInt8 := if 0x41 ≤ c ∧ c ≤ 0x5A then c + 32 else c

/-- Printable, and no space. -/
def url_byte_ok (c : UInt8) : Bool := 0x21 ≤ c && c ≤ 0x7E

def hdr_byte_ok (c : UInt8) : Bool := 0x20 ≤ c && c ≤ 0x7E

def digit (c : UInt8) : Bool := 0x30 ≤ c && c ≤ 0x39

def host_byte_ok (c : UInt8) : Bool :=
  (0x61 ≤ c && c ≤ 0x7A) || (0x41 ≤ c && c ≤ 0x5A) || digit c || c = 0x2D || c = 0x5F

def blank (c : UInt8) : Bool := c = 0x20 || c = 0x09 || c = 0x0D || c = 0x0A

/-- How a comparison sees a byte; `ci` ignores the case of letters. -/
def fold (ci : Bool) (c : UInt8) : UInt8 := if ci then lc c else c

/-- Where `needle` occurs first. -/
def find_bytes (hay needle : text_t) (ci : Bool) : Option Nat :=
  if needle = [] then none
  else (List.range (hay.length + 1 - needle.length)).find? fun i =>
    (needle.map (fold ci)).isPrefixOf ((hay.drop i).map (fold ci))

end Bytes

section Parsing

structure fetch_url_t where
  https : Bool
  port : Nat
  explicit_port : Bool
  is_ip : Bool
  host : text_t
  path : text_t
  deriving DecidableEq, Repr

/-- The sentences of a URL that is not taken. -/
inductive url_why_t where
  | empty
  | too_long (len : Nat)
  | byte (c : UInt8) (off : Nat)
  | no_scheme
  | scheme (s : text_t)
  | ipv6
  | userinfo
  | port_missing
  | port_too_long
  | port_not_number (s : text_t)
  | port_range (v : Nat)
  | host_empty
  | host_too_long (len : Nat)
  | host_room
  | empty_label
  | trailing_dot
  | host_byte (c : UInt8) (off : Nat)
  | label_too_long
  | path_too_long (len : Nat)
  deriving DecidableEq, Repr

/-- The counters of `parse_host`. -/
structure labels_t where
  label : Nat
  labels : Nat
  numeric_labels : Nat
  all_numeric : Bool
  octet : Nat

/-- The end of a label. -/
def labels_t.close (s : labels_t) : labels_t :=
  { s with
    label := 0
    labels := s.labels + 1
    numeric_labels := if s.label ≤ 3 ∧ s.octet ≤ 255 then s.numeric_labels + 1 else s.numeric_labels
    octet := 0 }

def host_byte (s : labels_t) (i : Nat) (c : UInt8) : Except url_why_t labels_t :=
  if c = 0x2E then if s.label = 0 then .error .empty_label else .ok s.close
  else if host_byte_ok c = false then .error (.host_byte c i)
  else if 63 < s.label + 1 then .error .label_too_long
  else
    .ok { s with
      label := s.label + 1
      octet := if digit c then (s.octet * 10 + (c.toNat - 0x30)) % 2 ^ 32 else s.octet
      all_numeric := s.all_numeric && digit c }

def host_bytes (s : labels_t) : Nat → text_t → Except url_why_t labels_t
  | _, [] => .ok s
  | i, c :: rest => do
    let s ← host_byte s i c
    host_bytes s (i + 1) rest

/-- The host in lower case, and whether it is a dotted quad. -/
def parse_host (h : text_t) : Except url_why_t (text_t × Bool) := do
  refuse (h = []) .host_empty
  -- one dot at the end makes a fully qualified name
  let h := if 1 < h.length ∧ h.getLast? = some 0x2E then h.dropLast else h
  refuse (253 < h.length) (.host_too_long h.length)
  refuse (FETCH_HOST_MAX ≤ h.length) .host_room
  refuse (h.head? = some 0x5B) .ipv6
  let s ← host_bytes ⟨0, 0, 0, true, 0⟩ 0 h
  refuse (s.label = 0) .trailing_dot
  return (h.map lc, s.close.all_numeric && s.close.labels = 4 && s.close.numeric_labels = 4)

/-- `https` or not, and where the authority begins. -/
def parse_scheme (url : text_t) : Except url_why_t (Bool × Nat) :=
  match find_bytes url [0x3A, 0x2F, 0x2F] false with
  | none => .error .no_scheme
  | some sep =>
    if sep = 5 ∧ find_bytes (url.take 5) (ascii ['h', 't', 't', 'p', 's']) true = some 0 then .ok (true, sep + 3)
    else if sep = 4 ∧ find_bytes (url.take 4) (ascii ['h', 't', 't', 'p']) true = some 0 then .ok (false, sep + 3)
    else .error (.scheme ((url.take sep).take 15))

/-- The port that stands behind the last colon of the authority. -/
def parse_port (p : text_t) : Except url_why_t Nat := do
  refuse (p = []) .port_missing
  refuse (5 < p.length) .port_too_long
  refuse (p.all digit = false) (.port_not_number p)
  let v := p.foldl (fun v c => v * 10 + (c.toNat - 0x30)) 0
  refuse (v = 0 ∨ 65535 < v) (.port_range v)
  return v

/-- What is behind the last colon, where there is one. -/
def port_text (authority : text_t) : Option text_t :=
  if 0x3A ∈ authority then some ((authority.reverse.takeWhile (· ≠ 0x3A)).reverse) else none

/-- The port and the host part of an authority. -/
def split_port (default_port : Nat) (authority : text_t) : Except url_why_t (Nat × text_t) :=
  match port_text authority with
  | none => .ok (default_port, authority)
  | some p => (parse_port p).map fun v => (v, authority.take (authority.length - p.length - 1))

def parse_path (pth : text_t) : Except url_why_t text_t :=
  if pth = [] then .ok [0x2F]
  else if pth.head? = some 0x3F then
    if FETCH_PATH_MAX ≤ pth.length + 1 then .error (.path_too_long (pth.length + 1)) else .ok (0x2F :: pth)
  else if FETCH_PATH_MAX - 1 < pth.length then .error (.path_too_long pth.length)
  else .ok pth

def authority_byte (c : UInt8) : Bool := c ≠ 0x2F && c ≠ 0x3F && c ≠ 0x23

def fetch_url_parse (url : text_t) : Except url_why_t fetch_url_t := do
  let url := ((url.dropWhile blank).reverse.dropWhile blank).reverse
  refuse (url = []) .empty
  refuse (FETCH_URL_MAX < url.length) (.too_long url.length)
  checkFrom (fun i c => refuse (url_byte_ok c = false) (.byte c i)) 0 url
  let (https, start) ← parse_scheme url
  let rest := url.drop start
  let authority := rest.takeWhile authority_byte
  refuse (authority.head? = some 0x5B) .ipv6
  refuse (0x40 ∈ authority) .userinfo
  let (port, host_part) ← split_port (if https then 443 else 80) authority
  let (host, is_ip) ← parse_host host_part
  let path ← parse_path ((rest.dropWhile authority_byte).takeWhile (· ≠ 0x23))
  return ⟨https, port, (port_text authority).isSome, is_ip, host, path⟩

end Parsing

section Accepted

variable {c : UInt8}

theorem url_byte_ok_lc (h : host_byte_ok c = true ∨ c = 0x2E) : url_byte_ok (lc c) = true := by
  have hall : ∀ n : Fin 256, host_byte_ok (UInt8.ofFin n) = true ∨ UInt8.ofFin n = 0x2E →
      url_byte_ok (lc (UInt8.ofFin n)) = true := by decide +kernel
  exact hall c.toFin h

theorem host_byte_ok_of_step {s s'} {i : Nat} (h : host_byte s i c = .ok s') : host_byte_ok c = true ∨ c = 0x2E := by
  unfold host_byte at h
  by_cases hdot : c = 0x2E
  · exact .inr hdot
  · rw [if_neg hdot] at h
    refine .inl ?_
    by_contra hbyte
    rw [if_pos (by simpa using hbyte)] at h
    cases h

theorem host_byte_ok_of_scan {s s'} {i : Nat} {h} (hscan : host_bytes s i h = .ok s') :
    ∀ c ∈ h, host_byte_ok c = true ∨ c = 0x2E := by
  induction h generalizing s i with
  | nil => simp
  | cons c rest ih =>
    rw [host_bytes] at hscan
    obtain ⟨t, ht, hrest⟩ := except_bind_eq_ok_iff.mp hscan
    intro d hd
    rcases mem_cons.mp hd with rfl | hd
    · exact host_byte_ok_of_step ht
    · exact ih hrest d hd

/-- A host that was taken is made of bytes that can stand in a header line. -/
theorem url_bytes_of_host {h host} {is_ip : Bool} (hparse : parse_host h = .ok (host, is_ip)) :
    ∀ c ∈ host, url_byte_ok c = true := by
  simp only [parse_host, except_bind_eq_ok_iff, pure, Except.pure, Except.ok.injEq, Prod.mk.injEq] at hparse
  obtain ⟨_, -, _, -, _, -, _, -, s, hscan, _, -, rfl, -⟩ := hparse
  intro c hc
  obtain ⟨d, hd, rfl⟩ := mem_map.mp hc
  exact url_byte_ok_lc (host_byte_ok_of_scan hscan d hd)

theorem parse_path_spec {pth path} (hfirst : ∀ c, pth.head? = some c → c = 0x2F ∨ c = 0x3F)
    (hbytes : ∀ c ∈ pth, url_byte_ok c = true) (h : parse_path pth = .ok path) :
    path.head? = some 0x2F ∧ ∀ c ∈ path, url_byte_ok c = true := by
  unfold parse_path at h
  split_ifs at h with hnil hquery hroom hroom
  · cases h
    refine ⟨rfl, fun c hc => ?_⟩
    rw [mem_singleton.mp hc]
    decide
  · cases h
    refine ⟨rfl, fun c hc => ?_⟩
    rcases mem_cons.mp hc with rfl | hc
    · decide
    · exact hbytes c hc
  · cases h
    obtain ⟨c, hc⟩ := Option.ne_none_iff_exists'.mp (by simpa using hnil : pth.head? ≠ none)
    refine ⟨?_, hbytes⟩
    obtain rfl | rfl := hfirst c hc
    · exact hc
    · exact absurd hc hquery

theorem head_behind_authority {rest : text_t} {c}
    (h : ((rest.dropWhile authority_byte).takeWhile (· ≠ 0x23)).head? = some c) : c = 0x2F ∨ c = 0x3F := by
  cases htail : rest.dropWhile authority_byte with
  | nil => simp [htail] at h
  | cons d tail =>
    have hend : authority_byte d = false := by
      have hhead := head?_dropWhile_not authority_byte rest
      rwa [htail] at hhead
    rw [htail, takeWhile_cons] at h
    split_ifs at h with hmark
    · obtain rfl : d = c := by simpa using h
      have hmark : d ≠ 0x23 := by simpa using hmark
      simp only [authority_byte, ne_eq, Bool.and_eq_false_iff, decide_eq_false_iff_not, not_not] at hend
      obtain (hslash | hquery) | hmark' := hend
      · exact .inl hslash
      · exact .inr hquery
      · exact absurd hmark' hmark
    · cases h

theorem split_port_le {default_port port : Nat} {authority host_part} (hdefault : default_port ≤ 65535)
    (h : split_port default_port authority = .ok (port, host_part)) : port ≤ 65535 := by
  unfold split_port at h
  split at h
  · obtain ⟨rfl, -⟩ := Prod.mk.inj (Except.ok.inj h)
    exact hdefault
  · rename_i p hp
    cases hparse : parse_port p with
    | error e => simp [hparse, Except.map] at h
    | ok v =>
      simp only [hparse, Except.map, Except.ok.injEq, Prod.mk.injEq] at h
      simp only [parse_port, except_bind_eq_ok_iff, refuse_eq_ok_iff, pure, Except.pure, Except.ok.injEq] at hparse
      obtain ⟨_, -, _, -, _, -, _, hrange, hv⟩ := hparse
      omega

/-- Of a URL that was taken, the host has no byte that a header line cannot
    have, and the path is the target of a request line: it begins with a slash
    and has no blank in it. -/
theorem fetch_url_parse_spec {url : text_t} {u} (h : fetch_url_parse url = .ok u) :
    (∀ c ∈ u.host, url_byte_ok c = true) ∧ u.path.head? = some 0x2F ∧ (∀ c ∈ u.path, url_byte_ok c = true) ∧
      u.port ≤ 65535 := by
  simp only [fetch_url_parse, except_bind_eq_ok_iff, checkFrom_refuse_eq_ok_iff, refuse_eq_ok_iff, pure, Except.pure,
    Except.ok.injEq] at h
  obtain ⟨_, -, _, -, _, hbytes, ⟨https, start⟩, -, _, -, _, -, ⟨port, host_part⟩, hport, ⟨host, is_ip⟩, hhost, path,
    hpath, rfl⟩ := h
  generalize ((url.dropWhile blank).reverse.dropWhile blank).reverse = trimmed at *
  have hrest : ∀ c ∈ ((trimmed.drop start).dropWhile authority_byte).takeWhile (· ≠ 0x23), url_byte_ok c = true := by
    intro c hc
    have hmem := (takeWhile_sublist _).subset hc
    have hmem := mem_of_mem_drop ((dropWhile_sublist _).subset hmem)
    simpa using hbytes c hmem
  have hfirst : ∀ c, (((trimmed.drop start).dropWhile authority_byte).takeWhile (· ≠ 0x23)).head? = some c →
      c = 0x2F ∨ c = 0x3F := fun c hc => head_behind_authority hc
  obtain ⟨hslash, hpathbytes⟩ := parse_path_spec hfirst hrest hpath
  exact ⟨url_bytes_of_host hhost, hslash, hpathbytes, split_port_le (by split <;> decide) hport⟩

end Accepted

end fable.net
