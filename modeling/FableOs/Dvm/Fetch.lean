import FableOs.Dvm.Safety.Budgets
import FableOs.Net.Response

namespace fable.dvm

open fable.exec List Exec

variable {σ : Type}
variable {env : env_t σ} {st st' : run_t σ} {u : Unit} {what : String} {sys : dvm_sys_t σ} {args : Nat → UInt64}

theorem mem_read_eq {off count : Nat} (h : off + count ≤ DVM_MEM_SIZE) (st : run_t σ) :
    mem_read off count st = .ok (st.mem.slice off count) st := by
  induction count generalizing off with
  | zero =>
    rw [CArray.slice_zero]
    rfl
  | succ count ih =>
    obtain ⟨b, hb⟩ := st.mem.get?_isSome_of_lt (i := off) (by omega)
    have hrest := @ih (off + 1) (by omega)
    rw [st.mem.slice_succ hb h]
    simp [mem_read, mem_get, bind_apply, hb, hrest]

theorem mem_write_eq {off : Nat} {bytes} (h : off + bytes.length ≤ DVM_MEM_SIZE) (st : run_t σ) :
    mem_write off bytes st = .ok () { st with mem := st.mem.write off bytes } := by
  induction bytes generalizing off st with
  | nil => rfl
  | cons b rest ih =>
    rw [length_cons] at h
    have hlt : off < DVM_MEM_SIZE := by omega
    simp only [mem_write, mem_set, bind_apply, inBounds_pos hlt, modify_apply]
    exact ih (by omega) _

theorem require_eq_ok {verdict} (h : require env verdict st = .ok u st') : st' = st ∧ verdict = .ok () := by
  cases hcase : verdict with
  | ok v =>
    rw [hcase] at h
    cases h
    exact ⟨rfl, rfl⟩
  | error why =>
    rw [hcase] at h
    cases h

theorem mem_span_eq_ok {off len : UInt64} (h : mem_span env off len what st = .ok u st') :
    st' = st ∧ off.toNat + len.toNat ≤ DVM_MEM_SIZE := by
  obtain ⟨hst, hok⟩ := require_eq_ok h
  rw [refuse_eq_ok_iff] at hok
  exact ⟨hst, by omega⟩

theorem require_of_refuse {c : Prop} [Decidable c] {why} (h : ¬ c) (st : run_t σ) :
    require env (refuse c why) st = .ok () st := by
  rw [(refuse_eq_ok_iff (e := why) (u := ())).mpr h]
  rfl

theorem mem_span_of_le {off len : UInt64} (h : off.toNat + len.toNat ≤ DVM_MEM_SIZE) (st : run_t σ) :
    mem_span env off len what st = .ok () st :=
  require_of_refuse (by omega) st

theorem mem_charge_eq_ok {n : UInt64} (h : mem_charge env n what st = .ok u st') :
    st'.mem = st.mem ∧ st'.ctx = st.ctx := by
  unfold mem_charge at h
  rw [bind_eq_ok_iff] at h
  obtain ⟨st₀, mid, hread, h⟩ := h
  cases hread
  rw [bind_eq_ok_iff] at h
  obtain ⟨_, mid', hreq, h⟩ := h
  obtain ⟨rfl, -⟩ := require_eq_ok hreq
  cases h
  exact ⟨rfl, rfl⟩

/-- What the backend answers to `net.fetch` with these arguments. -/
def fetch_reply (fetch : σ → List UInt8 → List UInt8 → fill_answer_t × σ) (args : Nat → UInt64) (st : run_t σ) :
    fill_answer_t :=
  (fetch st.ctx ((st.mem.slice (args 0).toNat (args 1).toNat).takeWhile (· != 0))
    (st.mem.slice (args 2).toNat (args 3).toNat)).1

theorem fetch_end_lt {rc} {cap : Nat} (hrc : 0 < rc.toInt) (hcap : 0 < cap) : fetch_end rc cap < cap := by
  unfold fetch_end
  split <;> omega

theorem fetch_terminate_eq {dst cap : Nat} (hspan : dst + cap ≤ DVM_MEM_SIZE) (rc : Int64) (st : run_t σ) :
    fetch_terminate dst cap rc st = .ok () { st with
      mem := if 0 < rc.toInt ∧ 0 < cap then st.mem.set (dst + fetch_end rc cap) 0 else st.mem } := by
  unfold fetch_terminate
  by_cases hwrite : 0 < rc.toInt ∧ 0 < cap
  · have hlt := fetch_end_lt hwrite.1 hwrite.2
    have hin : dst + fetch_end rc cap < DVM_MEM_SIZE := by omega
    simp only [hwrite, hlt, and_self, if_true, mem_set, bind_apply, inBounds_pos hin, modify_apply]
  · rw [if_neg hwrite, if_neg (fun h => hwrite ⟨h.1, h.2.1⟩)]
    rfl

/-- The arena after a `net.fetch`: the bytes of the hook, and a zero at the index
    that is computed from its answer. -/
def fetch_mem (fetch : σ → List UInt8 → List UInt8 → fill_answer_t × σ) (args : Nat → UInt64) (st : run_t σ) :
    CArray UInt8 DVM_MEM_SIZE :=
  let reply := fetch_reply fetch args st
  let mem := st.mem.write (args 2).toNat (reply.bytes.take (args 3).toNat)
  if 0 < reply.answer.rc.toInt ∧ 0 < (args 3).toNat then
    mem.set ((args 2).toNat + fetch_end reply.answer.rc (args 3).toNat) 0
  else mem

/-- With both spans in the arena, a URL of a legal length and budget left,
    `net.fetch` returns what the hook answers. -/
theorem sys_net_fetch_of_charge {mid fetch} (hfetch : sys.net_fetch = some fetch)
    (hurl : (args 0).toNat + (args 1).toNat ≤ DVM_MEM_SIZE) (hlen : ¬ (args 1 = 0 ∨ FETCH_URL_MAX ≤ (args 1).toNat))
    (hdst : (args 2).toNat + (args 3).toNat ≤ DVM_MEM_SIZE)
    (hcharge : mem_charge env (args 1 + args 3) "net.fetch" st = .ok u mid) :
    ∃ st', sys_net_fetch env sys (args 0) (args 1) (args 2) (args 3) st = .ok (fetch_reply fetch args st).answer st' ∧
      st'.mem = fetch_mem fetch args st := by
  obtain ⟨hmem, hctx⟩ := mem_charge_eq_ok hcharge
  have hbytes (bytes : List UInt8) : (args 2).toNat + (bytes.take (args 3).toNat).length ≤ DVM_MEM_SIZE := by
    rw [length_take]
    omega
  simp only [sys_net_fetch, bind_apply, mem_span_of_le hurl, mem_span_of_le hdst, require_of_refuse hlen, hcharge,
    mem_read_eq hurl, mem_read_eq hdst, hfetch, sys_hook, pure_apply, perform, mem_write_eq (hbytes _),
    fetch_terminate_eq hdst]
  simp only [fetch_mem, fetch_reply, hmem, hctx]
  exact ⟨_, rfl, rfl⟩

theorem sys_net_fetch_mem {answer fetch} (hfetch : sys.net_fetch = some fetch)
    (h : sys_net_fetch env sys (args 0) (args 1) (args 2) (args 3) st = .ok answer st') :
    (args 2).toNat + (args 3).toNat ≤ DVM_MEM_SIZE ∧ answer = (fetch_reply fetch args st).answer ∧
      st'.mem = fetch_mem fetch args st := by
  have hsteps := h
  unfold sys_net_fetch at hsteps
  rw [bind_eq_ok_iff] at hsteps
  obtain ⟨_, _, hspan, hsteps⟩ := hsteps
  obtain ⟨rfl, hurl⟩ := mem_span_eq_ok hspan
  rw [bind_eq_ok_iff] at hsteps
  obtain ⟨_, _, hrequire, hsteps⟩ := hsteps
  obtain ⟨rfl, hlen⟩ := require_eq_ok hrequire
  rw [bind_eq_ok_iff] at hsteps
  obtain ⟨_, _, hspan', hsteps⟩ := hsteps
  obtain ⟨rfl, hdst⟩ := mem_span_eq_ok hspan'
  rw [bind_eq_ok_iff] at hsteps
  obtain ⟨_, _, hcharge, -⟩ := hsteps
  obtain ⟨st₁, hst, hmem⟩ := sys_net_fetch_of_charge hfetch hurl (refuse_eq_ok_iff.mp hlen) hdst hcharge
  cases h.symm.trans hst
  exact ⟨hdst, rfl, hmem⟩

/-- The bytes from `dst` on are the body, a single NUL follows it, and every
    other byte of the arena is as it was. -/
structure Delivered (mem mem' : CArray UInt8 DVM_MEM_SIZE) (dst : Nat) (body : List UInt8) : Prop where
  room : dst + body.length < DVM_MEM_SIZE
  bytes : ∀ j, mem'.get? j =
    if dst ≤ j ∧ j < dst + body.length then body[j - dst]?
    else if j = dst + body.length then some 0 else mem.get? j

/-- What has arrived behind the place of the body is what the arena held there,
    and the zero that is put at the index of the status replaces a zero. -/
structure Undisturbed (mem : CArray UInt8 DVM_MEM_SIZE) (dst cap : Nat) (rx : List UInt8) (res : net.fetch_result_t) :
    Prop where
  rest : ∀ i, res.body.length < i → i ≤ rx.length → i ≠ min res.http_status (cap - 1) →
    (rx ++ [0])[i]? = mem.get? (dst + i)
  inside : 0 < res.http_status → min res.http_status (cap - 1) < res.body.length →
    res.body[min res.http_status (cap - 1)]? = some 0
  behind : res.body.length < min res.http_status (cap - 1) → mem.get? (dst + min res.http_status (cap - 1)) = some 0

section Buffer

variable {mem : CArray UInt8 DVM_MEM_SIZE} {dst cap : Nat} {rx : List UInt8} {res : net.fetch_result_t}

/-- The buffer as `fetch` leaves it, with the body at its front. -/
def moved (rx body : List UInt8) : List UInt8 := body ++ 0 :: (rx ++ [0]).drop (body.length + 1)

theorem length_moved {body : List UInt8} (h : body.length < rx.length) : (moved rx body).length = rx.length + 1 := by
  simp only [moved, length_append, length_cons, length_drop, length_nil]
  omega

theorem getElem?_moved (body : List UInt8) (i : Nat) :
    (moved rx body)[i]? = if i < body.length then body[i]? else if i = body.length then some 0 else (rx ++ [0])[i]? := by
  rw [moved, getElem?_append]
  by_cases hin : i < body.length
  · rw [if_pos hin, if_pos hin]
  · rw [if_neg hin, if_neg hin]
    obtain ⟨k, rfl⟩ := Nat.exists_eq_add_of_le (Nat.le_of_not_lt hin)
    cases k with
    | zero => simp
    | succ k =>
      rw [if_neg (by omega), Nat.add_sub_cancel_left, getElem?_cons_succ, getElem?_drop]
      congr 1
      omega

/-- The arena after the call, byte by byte. -/
theorem get?_fetched (hspan : dst + cap ≤ DVM_MEM_SIZE) (hcap : rx.length < cap)
    (hbody : res.body.length < rx.length) (j : Nat) :
    (if 0 < res.http_status then
        (mem.write dst (moved rx res.body)).set (dst + min res.http_status (cap - 1)) 0
      else mem.write dst (moved rx res.body)).get? j =
      if 0 < res.http_status ∧ j = dst + min res.http_status (cap - 1) then some 0
      else if dst ≤ j ∧ j ≤ dst + rx.length then (moved rx res.body)[j - dst]? else mem.get? j := by
  have hwrite := mem.get?_write dst (moved rx res.body) (by rw [length_moved hbody]; omega) j
  rw [length_moved hbody] at hwrite
  have hin : (dst ≤ j ∧ j < dst + (rx.length + 1)) ↔ dst ≤ j ∧ j ≤ dst + rx.length := by omega
  simp only [hin] at hwrite
  by_cases hput : 0 < res.http_status
  · have hlt : j = dst + min res.http_status (cap - 1) → j < DVM_MEM_SIZE := by omega
    simp only [hput, if_true, true_and, CArray.get?_set, hwrite, and_iff_left_of_imp hlt]
  · simp only [hput, if_false, false_and, hwrite]

theorem delivered_iff (hspan : dst + cap ≤ DVM_MEM_SIZE) (hcap : rx.length < cap) (hbody : res.body.length < rx.length) :
    Delivered mem (if 0 < res.http_status then
        (mem.write dst (moved rx res.body)).set (dst + min res.http_status (cap - 1)) 0
      else mem.write dst (moved rx res.body)) dst res.body ↔ Undisturbed mem dst cap rx res := by
  have hfetched := @get?_fetched mem dst cap rx res hspan hcap hbody
  constructor
  · intro h
    refine ⟨fun i hlo hhi hne => ?_, fun hput hlt => ?_, fun hlt => ?_⟩
    · have hbyte := h.bytes (dst + i)
      rwa [hfetched, if_neg (by omega), if_pos (by omega), Nat.add_sub_cancel_left, getElem?_moved, if_neg (by omega),
        if_neg (by omega), if_neg (by omega), if_neg (by omega)] at hbyte
    · have hbyte := h.bytes (dst + min res.http_status (cap - 1))
      rwa [hfetched, if_pos ⟨hput, rfl⟩, if_pos (by omega), Nat.add_sub_cancel_left, eq_comm] at hbyte
    · have hbyte := h.bytes (dst + min res.http_status (cap - 1))
      rwa [hfetched, if_pos (by omega), if_neg (by omega), if_neg (by omega), eq_comm] at hbyte
  · intro h
    refine ⟨by omega, fun j => ?_⟩
    rw [hfetched]
    by_cases hput : 0 < res.http_status ∧ j = dst + min res.http_status (cap - 1)
    · -- the zero of the status: inside the body, right behind it, or further on
      obtain ⟨hpos, rfl⟩ := hput
      rw [if_pos ⟨hpos, rfl⟩]
      obtain hlt | heq | hgt := Nat.lt_trichotomy (min res.http_status (cap - 1)) res.body.length
      · rw [if_pos (by omega), Nat.add_sub_cancel_left, h.inside hpos hlt]
      · rw [if_neg (by omega), if_pos (by omega)]
      · rw [if_neg (by omega), if_neg (by omega), h.behind hgt]
    · rw [if_neg hput]
      by_cases hin : dst ≤ j ∧ j ≤ dst + rx.length
      · rw [if_pos hin]
        obtain ⟨i, rfl⟩ := Nat.exists_eq_add_of_le hin.1
        rw [Nat.add_sub_cancel_left, getElem?_moved]
        obtain hlt | rfl | hgt := Nat.lt_trichotomy i res.body.length
        · rw [if_pos hlt, if_pos (by omega)]
        · rw [if_neg (by omega), if_pos rfl, if_neg (by omega), if_pos rfl]
        · rw [if_neg (by omega), if_neg (by omega), if_neg (by omega), if_neg (by omega), h.rest i hgt (by omega) (by omega)]
      · rw [if_neg hin, if_neg (by omega), if_neg (by omega)]

end Buffer

/-- A syscall that sets the zero flag has returned its answer as it came. -/
theorem sys_call_eq_ok {nr} {v : UInt64} (h : sys_call env sys nr args st = .ok (v, true) st') :
    ∃ answer, sys_dispatch env sys nr args st = .ok answer st' ∧ ¬ answer.rc < 0 := by
  unfold sys_call at h
  rw [bind_eq_ok_iff] at h
  obtain ⟨answer, mid, hanswer, h⟩ := h
  by_cases hneg : answer.rc < 0
  · rw [if_pos hneg, bind_eq_ok_iff] at h
    obtain ⟨_, _, -, h⟩ := h
    cases h
  · rw [if_neg hneg] at h
    cases h
    exact ⟨answer, hanswer, hneg⟩

section Kernel

open fable.net (fetch_conn_t fetch_wire_t backend_t fetch_result_t fetch_split_response fetch_into recv_cb no_options)

def k_net_fetch (key : Option json.cstr_t) (b : backend_t) (exchange : σ → fetch_conn_t → fetch_wire_t × σ) (ctx : σ)
    (url dst : List UInt8) : fill_answer_t × σ :=
  match fetch_into key b exchange ctx url no_options dst.length with
  | (.ok res, bytes, ctx) => (⟨⟨Int64.ofNat res.http_status, ""⟩, bytes⟩, ctx)
  | (.error (e, why), bytes, ctx) => (⟨⟨e.rc, s!"net.fetch {text_of url}: {why}"⟩, bytes⟩, ctx)

variable {key : Option json.cstr_t} {b : backend_t} {exchange : σ → fetch_conn_t → fetch_wire_t × σ}

/-- What is in the buffer when the exchange of a `net.fetch` ends. -/
def arrived (key : Option json.cstr_t) (b : backend_t) (exchange : σ → fetch_conn_t → fetch_wire_t × σ)
    (args : Nat → UInt64) (st : run_t σ) : List UInt8 :=
  match (net.fetch key b ((st.mem.slice (args 0).toNat (args 1).toNat).takeWhile (· != 0)) no_options).2 with
  | .ok c => recv_cb (args 3).toNat (exchange st.ctx c).1.received
  | .error _ => []

/-- A call of the kernel's hook that succeeds has split a response. -/
theorem fetch_reply_of_success (hspan : (args 2).toNat + (args 3).toNat ≤ DVM_MEM_SIZE)
    (hrc : ¬ (fetch_reply (k_net_fetch key b exchange) args st).answer.rc < 0) :
    ∃ res, fetch_split_response (arrived key b exchange args st) = some res ∧
      (arrived key b exchange args st).length < (args 3).toNat ∧
      (fetch_reply (k_net_fetch key b exchange) args st).answer.rc = Int64.ofNat res.http_status ∧
      (fetch_reply (k_net_fetch key b exchange) args st).bytes = moved (arrived key b exchange args st) res.body := by
  unfold fetch_reply k_net_fetch at hrc ⊢
  rw [CArray.length_slice _ hspan] at hrc ⊢
  unfold fetch_into at hrc ⊢
  by_cases hcap : (args 3).toNat < 256
  · rw [if_pos hcap] at hrc
    exact absurd (net.fetch_error_t.rc_neg _) hrc
  rw [if_neg hcap] at hrc ⊢
  rw [arrived]
  cases hfetch : (net.fetch key b ((st.mem.slice (args 0).toNat (args 1).toNat).takeWhile (· != 0)) no_options).2 with
  | error why =>
    rw [hfetch] at hrc
    exact absurd (net.fetch_error_t.rc_neg _) hrc
  | ok c =>
    rw [hfetch] at hrc
    dsimp only at hrc ⊢
    have hlen : (recv_cb (args 3).toNat (exchange st.ctx c).1.received).length < (args 3).toNat := by
      rw [recv_cb, length_take]
      omega
    cases hwire : (exchange st.ctx c).1.rc with
    | error why =>
      rw [hwire] at hrc
      exact absurd (net.fetch_error_t.rc_neg _) hrc
    | ok _ =>
      rw [hwire] at hrc
      dsimp only at hrc ⊢
      cases hsplit : fetch_split_response (recv_cb (args 3).toNat (exchange st.ctx c).1.received) with
      | none =>
        rw [hsplit] at hrc
        exact absurd (net.fetch_error_t.rc_neg _) hrc
      | some res => exact ⟨res, rfl, hlen, rfl, rfl⟩

/-- The arena after a `net.fetch` through the kernel's hook. -/
theorem net_fetch_mem {v : UInt64} (hsys : sys.net_fetch = some (k_net_fetch key b exchange))
    (hcall : sys_call env sys .NET_FETCH args st = .ok (v, true) st') :
    ∃ res, fetch_split_response (arrived key b exchange args st) = some res ∧
      (args 2).toNat + (args 3).toNat ≤ DVM_MEM_SIZE ∧
      (arrived key b exchange args st).length < (args 3).toNat ∧
      res.body.length < (arrived key b exchange args st).length ∧
      st'.mem = if 0 < res.http_status then
          (st.mem.write (args 2).toNat (moved (arrived key b exchange args st) res.body)).set
            ((args 2).toNat + min res.http_status ((args 3).toNat - 1)) 0
        else st.mem.write (args 2).toNat (moved (arrived key b exchange args st) res.body) := by
  obtain ⟨answer, hdispatch, hrc⟩ := sys_call_eq_ok hcall
  obtain ⟨hspan, rfl, hmem⟩ := sys_net_fetch_mem hsys hdispatch
  obtain ⟨res, hsplit, hlen, hstatus, hbytes⟩ := fetch_reply_of_success hspan hrc
  obtain ⟨hbody, hsmall⟩ := net.fetch_split_response_spec hsplit
  have hint : (Int64.ofNat res.http_status).toInt = res.http_status := Int64.toInt_ofNat_of_lt hsmall
  have hend : fetch_end (Int64.ofNat res.http_status) (args 3).toNat = min res.http_status ((args 3).toNat - 1) := by
    rw [fetch_end, hint]
    split <;> omega
  have htake : (moved (arrived key b exchange args st) res.body).take (args 3).toNat =
      moved (arrived key b exchange args st) res.body := take_of_length_le (by rw [length_moved hbody]; omega)
  have hput : (0 < (res.http_status : Int) ∧ 0 < (args 3).toNat) ↔ 0 < res.http_status := by omega
  simp only [fetch_mem, hstatus, hbytes, hend, htake, hint, hput] at hmem
  exact ⟨res, hsplit, hspan, hlen, hbody, hmem⟩

/-- After a successful `net.fetch` the arena holds the body, one zero behind it
    and nothing else new exactly when what is left of the response and the zero
    at the index of the status change nothing; that index is computed from the
    status code and not from the body. -/
theorem net_fetch_delivers_iff {env : env_t σ} {sys : dvm_sys_t σ} {args : Nat → UInt64} {st st' : run_t σ} {v : UInt64}
    (hsys : sys.net_fetch = some (k_net_fetch key b exchange))
    (hcall : sys_call env sys .NET_FETCH args st = .ok (v, true) st') :
    ∃ res, fetch_split_response (arrived key b exchange args st) = some res ∧
      (Delivered st.mem st'.mem (args 2).toNat res.body ↔
        Undisturbed st.mem (args 2).toNat (args 3).toNat (arrived key b exchange args st) res) := by
  obtain ⟨res, hsplit, hspan, hlen, hbody, hmem⟩ := net_fetch_mem hsys hcall
  refine ⟨res, hsplit, ?_⟩
  rw [hmem]
  exact delivered_iff hspan hlen hbody

section Page

/-- A server that answers every request with status 200 and the same body. -/
def page (body : List UInt8) : List UInt8 :=
  net.VERSION ++ [0x20, 0x32, 0x30, 0x30] ++ Lines.CRLF ++ Lines.CRLF ++ body

def serve (body : List UInt8) (ctx : Unit) (_c : fetch_conn_t) : fetch_wire_t × Unit := (⟨.ok (), page body⟩, ctx)

def page_sys (body : List UInt8) : dvm_sys_t Unit :=
  ⟨none, none, none, none, none, none, some (k_net_fetch none ⟨none, true⟩ (serve body))⟩

def fetch_env : env_t Unit := ⟨image_of [], dvm_policy_init, bare_io, bare_plat, bare_bus⟩

/-- The arena holds a URL at 1024. -/
def fetch_state : run_t Unit :=
  let st := initial_state fetch_env (bare_call [] dvm_policy_init) bare_machine
  { st with mem := st.mem.write 1024 net.ROOT_URL }

/-- `net.fetch(1024, 15, 0, 400)` -/
def fetch_args (k : Nat) : UInt64 := if k = 0 then 1024 else if k = 1 then 15 else if k = 3 then 400 else 0

variable {body : List UInt8}

theorem length_page (count : Nat) (c : UInt8) : (page (replicate count c)).length = 16 + count := by
  rw [page, length_append, length_replicate]
  rfl

theorem getElem?_page (body : List UInt8) (k : Nat) : (page body ++ [0])[16 + k]? = (body ++ [0])[k]? := by
  have hhead : (net.VERSION ++ [0x20, 0x32, 0x30, 0x30] ++ Lines.CRLF ++ Lines.CRLF).length = 16 := rfl
  rw [page, append_assoc, getElem?_append_right (by rw [hhead]; omega), hhead, Nat.add_sub_cancel_left]

/-- The first line ends at 12 and the head at 16, whatever follows. -/
theorem split_page (body : List UInt8) : fetch_split_response (page body) = some ⟨200, body⟩ := by
  have heol : net.find_bytes (page body) Lines.CRLF false = some 12 := net.find_bytes_eq_some (by decide) rfl rfl
  have hhdr : net.find_bytes (page body) (Lines.CRLF ++ Lines.CRLF) false = some 12 :=
    net.find_bytes_eq_some (by decide) rfl rfl
  rw [fetch_split_response, heol, hhdr]
  rfl

theorem page_url : (fetch_state.mem.slice (fetch_args 0).toNat (fetch_args 1).toNat).takeWhile (· != 0) = net.ROOT_URL := by
  have hslice : fetch_state.mem.slice 1024 15 = net.ROOT_URL := CArray.slice_write _ 1024 net.ROOT_URL (by decide)
  have hurl : net.ROOT_URL.takeWhile (· != 0) = net.ROOT_URL := by decide
  exact (congrArg (takeWhile (· != 0)) hslice).trans hurl

theorem page_conn : ∃ c, (net.fetch none ⟨none, true⟩ net.ROOT_URL no_options).2 = .ok c :=
  exists_of_isOk (by decide)

theorem arrived_page (hshort : (page body).length < 400) :
    arrived none ⟨none, true⟩ (serve body) fetch_args fetch_state = page body := by
  obtain ⟨c, hc⟩ := page_conn
  rw [arrived, page_url, hc]
  exact take_of_length_le (show (page body).length ≤ 399 by omega)

theorem page_fetched (hshort : (page body).length < 400) :
    ∃ st', sys_call fetch_env (page_sys body) .NET_FETCH fetch_args fetch_state = .ok (200, true) st' := by
  obtain ⟨st', hst, -⟩ := @sys_net_fetch_of_charge Unit fetch_env fetch_state () (page_sys body) fetch_args _ _ rfl
    (by decide) (by decide) (by decide) rfl
  have hanswer : (fetch_reply (k_net_fetch none ⟨none, true⟩ (serve body)) fetch_args fetch_state).answer = ⟨200, ""⟩ := by
    obtain ⟨c, hc⟩ := page_conn
    have hrecv : recv_cb 400 (page body) = page body := take_of_length_le (show (page body).length ≤ 399 by omega)
    have hlen : (fetch_state.mem.slice (fetch_args 2).toNat (fetch_args 3).toNat).length = 400 :=
      CArray.length_slice _ (by decide)
    rw [fetch_reply, page_url, k_net_fetch, hlen, fetch_into, if_neg (by decide), hc]
    simp only [serve, hrecv, split_page]
    rfl
  refine ⟨st', ?_⟩
  rw [sys_call, bind_apply, sys_dispatch, hst, hanswer]
  rfl

theorem mem_fetch_state {i : Nat} (h : i < 1024) : fetch_state.mem.get? i = some 0 := by
  have hwrite := CArray.get?_write (initial_state fetch_env (bare_call [] dvm_policy_init) bare_machine).mem 1024
    net.ROOT_URL (by decide) i
  rw [if_neg (by omega)] at hwrite
  exact hwrite.trans (CArray.get?_of_lt _ (by change _ < 65536; omega))

/-- A page of 200 zero bytes with status 200 is delivered: its length is the status,
    and what is left of it is zero like the arena. -/
theorem zero_page_delivered :
    ∃ st', sys_call fetch_env (page_sys (replicate 200 0)) .NET_FETCH fetch_args fetch_state = .ok (200, true) st' ∧
      Delivered fetch_state.mem st'.mem 0 (replicate 200 0) := by
  have hshort : (page (replicate 200 0)).length < 400 := by simp only [length_page]; decide
  obtain ⟨st', hcall⟩ := page_fetched hshort
  obtain ⟨res, hres, hiff⟩ := net_fetch_delivers_iff rfl hcall
  rw [arrived_page hshort] at hres hiff
  obtain rfl := Option.some.inj (hres.symm.trans (split_page _))
  have hend : (replicate 200 (0 : UInt8)).length = min 200 (400 - 1) := length_replicate
  refine ⟨st', hcall, hiff.mpr ⟨fun i hlo hhi _ => ?_, fun _ hlt => absurd hlt hend.not_gt,
    fun hlt => absurd hlt hend.not_lt⟩⟩
  simp only [length_page, length_replicate] at hlo hhi
  obtain ⟨k, rfl⟩ := Nat.exists_eq_add_of_le (show 16 ≤ i by omega)
  have hzeros : replicate 200 (0 : UInt8) ++ [0] = replicate 201 0 := replicate_succ'.symm
  rw [getElem?_page, hzeros, getElem?_replicate_of_lt (by omega)]
  exact (mem_fetch_state (by change 0 + (16 + k) < 1024; omega)).symm

theorem page_not_delivered (hshort : (page body).length < 400)
    (hno : ¬ Undisturbed fetch_state.mem 0 400 (page body) ⟨200, body⟩) :
    ∃ st', sys_call fetch_env (page_sys body) .NET_FETCH fetch_args fetch_state = .ok (200, true) st' ∧
      ¬ Delivered fetch_state.mem st'.mem 0 body := by
  obtain ⟨st', hcall⟩ := page_fetched hshort
  obtain ⟨res, hres, hspan, hlen, hbody, hmem⟩ := net_fetch_mem rfl hcall
  rw [arrived_page hshort] at hres hlen hbody hmem
  obtain rfl := Option.some.inj (hres.symm.trans (split_page _))
  refine ⟨st', hcall, fun h => hno ?_⟩
  rw [hmem] at h
  exact (delivered_iff hspan hlen hbody).mp h

/-- A page of 300 letters "a" comes out with a NUL in its middle, and one of 200
    leaves its last letters behind itself. -/
theorem letters_not_delivered :
    (∃ st', sys_call fetch_env (page_sys (replicate 300 0x61)) .NET_FETCH fetch_args fetch_state = .ok (200, true) st' ∧
      ¬ Delivered fetch_state.mem st'.mem 0 (replicate 300 0x61)) ∧
    ∃ st', sys_call fetch_env (page_sys (replicate 200 0x61)) .NET_FETCH fetch_args fetch_state = .ok (200, true) st' ∧
      ¬ Delivered fetch_state.mem st'.mem 0 (replicate 200 0x61) := by
  constructor
  · refine page_not_delivered (by simp only [length_page]; decide) fun h => ?_
    have hbyte := h.inside (by decide) (length_replicate ▸ (by decide : min 200 (400 - 1) < 300))
    rw [getElem?_replicate_of_lt (by decide)] at hbyte
    cases hbyte
  · refine page_not_delivered (by simp only [length_page]; decide) fun h => ?_
    have hbyte := h.rest (16 + 185) (by simp only [length_replicate]; decide) (by simp only [length_page]; decide)
      (by decide)
    rw [mem_fetch_state (by decide), getElem?_page, getElem?_append_left (by rw [length_replicate]; decide),
      getElem?_replicate_of_lt (by decide)] at hbyte
    cases hbyte

end Page

end Kernel

end fable.dvm
