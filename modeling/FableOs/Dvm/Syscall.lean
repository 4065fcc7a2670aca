import FableOs.Dvm.Machine

namespace fable.dvm

open fable.exec

variable {σ : Type}

/-- Is the path inside the subtree? "/vm" matches "/vm/notes" and not
    "/vmother"; a root of one byte is "/" and matches everything. -/
def path_under (root out : List UInt8) : Bool :=
  root.isPrefixOf out &&
    (root.length ≤ 1 || (out.drop root.length).head?.all fun c => c = SLASH || c = 0)

def path_verdict (pol : dvm_policy_t) (out : List UInt8) (what : String) :
    Except (dvm_status_t × String) Unit :=
  match path_ok out with
  | .error why => .error (.DVM_TRAP_SYS_DENIED, s!"{what}: {snprintf DVM_MSG_MAX why}")
  | .ok _ => do
    let root := cstring pol.fs_root
    refuse (root = [])
      (.DVM_TRAP_SYS_DENIED, s!"{what}: no filesystem subtree has been granted to this program")
    refuse (¬ path_under root out)
      (.DVM_TRAP_SYS_DENIED,
        s!"{what}: \"{text_of out}\" is outside \"{text_of root}\", the only subtree this program may name")

def sys_path (env : env_t σ) (off len : UInt64) (what : String) : M σ (List UInt8) := do
  mem_span env off len what
  mem_charge env len what
  require env (refuse (DVM_PATH_MAX ≤ len.toNat)
    (.DVM_TRAP_SYS_DENIED, s!"{what}: the path is {len.toNat} bytes; the limit is {DVM_PATH_MAX - 1}"))
  let out ← mem_read off.toNat len.toNat
  require env (path_verdict env.pol out what)
  pure out

def sys_fail (env : env_t σ) (name why : String) : M σ Unit := do
  let text := if why = "" then "failed" else snprintf DVM_MSG_MAX why
  Exec.modify fun st => { st with res := { st.res with
    sys_msg := copy_printable DVM_MSG_MAX (snprintf DVM_MSG_MAX s!"{name}: {text}") } }
  tline env DVM_TRACE_IO

/-- The hook of a syscall, or the trap that says the backend has none. -/
def sys_hook {H : Type} (env : env_t σ) (hook : Option H) (text : String) : M σ H :=
  match hook with
  | some h => pure h
  | none => trap env .DVM_TRAP_NO_BACKEND text

def sys_con_write (env : env_t σ) (sys : dvm_sys_t σ) (off len : UInt64) : M σ sys_answer_t := do
  mem_span env off len "con.write"
  require env (refuse (DVM_SAY_MAX < len.toNat)
    (.DVM_TRAP_SYS_DENIED,
      s!"con.write: {len.toNat} bytes is more than the {DVM_SAY_MAX} a console line may carry; split it"))
  mem_charge env len "con.write"
  let st ← Exec.read
  require env (refuse (env.pol.max_prints.toNat ≤ st.res.prints)
    (.DVM_TRAP_PRINT_BUDGET, s!"print budget of {env.pol.max_prints.toNat} lines reached at con.write"))
  let con_write ← sys_hook env sys.con_write "con.write: this VM has no console backend"
  let bytes ← mem_read off.toNat len.toNat
  let text := bytes.map fun c => if is_printable c then c else 0x3F
  Exec.modify fun st => { st with res := { st.res with prints := st.res.prints + 1 } }
  perform (.con_write text) fun ctx => con_write ctx text

def sys_fs_read (env : env_t σ) (sys : dvm_sys_t σ) (poff plen dst cap : UInt64) : M σ sys_answer_t := do
  let path ← sys_path env poff plen "fs.read"
  mem_span env dst cap "fs.read"
  mem_charge env cap "fs.read"
  let fs_read ← sys_hook env sys.fs_read "fs.read: this VM has no filesystem backend"
  let old ← mem_read dst.toNat cap.toNat
  let reply ← perform (.fs_read path cap.toNat) fun ctx => fs_read ctx path old
  mem_write dst.toNat (reply.bytes.take cap.toNat)
  require env (refuse (0 < reply.answer.rc.toInt ∧ (cap.toNat : Int) < reply.answer.rc.toInt)
    (.DVM_TRAP_NO_BACKEND,
      s!"fs.read: the filesystem returned {reply.answer.rc.toInt} bytes into a {cap.toNat}-byte buffer; that is a kernel bug, not a problem with this program"))
  raise_hwm (if 0 < reply.answer.rc.toInt then dst.toNat + reply.answer.rc.toInt.toNat else 0)
  pure reply.answer

def sys_fs_write (env : env_t σ) (sys : dvm_sys_t σ) (poff plen src len : UInt64) : M σ sys_answer_t := do
  let path ← sys_path env poff plen "fs.write"
  mem_span env src len "fs.write"
  mem_charge env len "fs.write"
  let fs_write ← sys_hook env sys.fs_write "fs.write: this VM has no filesystem backend"
  let bytes ← mem_read src.toNat len.toNat
  perform (.fs_write path bytes) fun ctx => fs_write ctx path bytes

def sys_fs_size (env : env_t σ) (sys : dvm_sys_t σ) (poff plen : UInt64) : M σ sys_answer_t := do
  let path ← sys_path env poff plen "fs.size"
  let fs_size ← sys_hook env sys.fs_size "fs.size: this VM has no filesystem backend"
  perform (.fs_size path) fun ctx => fs_size ctx path

def sys_audio_tone (env : env_t σ) (sys : dvm_sys_t σ) (hz ms : UInt64) : M σ sys_answer_t := do
  require env (refuse (hz < 20 ∨ 20000 < hz)
    (.DVM_TRAP_SYS_DENIED, s!"audio.tone: {hz.toNat} Hz is outside 20-20000"))
  require env (refuse (ms < 1 ∨ 5000 < ms)
    (.DVM_TRAP_SYS_DENIED, s!"audio.tone: {ms.toNat} ms is outside 1-5000"))
  let audio_tone ← sys_hook env sys.audio_tone "audio.tone: this VM has no audio backend"
  perform (.audio_tone hz.toUInt32 ms.toUInt32) fun ctx => audio_tone ctx hz.toUInt32 ms.toUInt32

def sys_time_ms (env : env_t σ) (sys : dvm_sys_t σ) : M σ sys_answer_t := do
  let time_ms ← sys_hook env sys.time_ms "time.ms: this VM has no clock backend"
  perform .time_ms fun ctx => time_ms ctx

/-- The index in the buffer at which `net.fetch` puts its terminator; the
    source computes it from the status code. -/
def fetch_end (rc : Int64) (cap : Nat) : Nat :=
  if rc.toInt < cap then rc.toInt.toNat else cap - 1

/-- "Ensure the response is NUL-terminated inside the arena." -/
def fetch_terminate (dst cap : Nat) (rc : Int64) : M σ Unit :=
  if 0 < rc.toInt ∧ 0 < cap ∧ fetch_end rc cap < cap then mem_set (dst + fetch_end rc cap) 0 else pure ()

def sys_net_fetch (env : env_t σ) (sys : dvm_sys_t σ) (url_off url_len dst_off dst_cap : UInt64) :
    M σ sys_answer_t := do
  mem_span env url_off url_len "net.fetch url"
  require env (refuse (url_len = 0 ∨ FETCH_URL_MAX ≤ url_len.toNat)
    (.DVM_TRAP_SYS_DENIED, s!"net.fetch: url length {url_len.toNat} is outside 1..{FETCH_URL_MAX - 1}"))
  mem_span env dst_off dst_cap "net.fetch dst"
  mem_charge env (url_len + dst_cap) "net.fetch"
  let url_buf ← mem_read url_off.toNat url_len.toNat
  let net_fetch ← sys_hook env sys.net_fetch "net.fetch: this VM has no network backend"
  let old ← mem_read dst_off.toNat dst_cap.toNat
  -- the hook reads the URL as a C string, so a NUL in the span ends it
  let url := url_buf.takeWhile (· != 0)
  let reply ← perform (.net_fetch url dst_cap.toNat) fun ctx => net_fetch ctx url old
  mem_write dst_off.toNat (reply.bytes.take dst_cap.toNat)
  fetch_terminate dst_off.toNat dst_cap.toNat reply.answer.rc
  pure reply.answer

def sys_dispatch (env : env_t σ) (sys : dvm_sys_t σ) (nr : dvm_sys_nr_t) (args : Nat → UInt64) :
    M σ sys_answer_t :=
  match nr with
  | .CON_WRITE => sys_con_write env sys (args 0) (args 1)
  | .FS_READ => sys_fs_read env sys (args 0) (args 1) (args 2) (args 3)
  | .FS_WRITE => sys_fs_write env sys (args 0) (args 1) (args 2) (args 3)
  | .FS_SIZE => sys_fs_size env sys (args 0) (args 1)
  | .AUDIO_TONE => sys_audio_tone env sys (args 0) (args 1)
  | .TIME_MS => sys_time_ms env sys
  | .NET_FETCH => sys_net_fetch env sys (args 0) (args 1) (args 2) (args 3)

/-- `sys_call`: the value for the destination register and the zero flag. -/
def sys_call (env : env_t σ) (sys : dvm_sys_t σ) (nr : dvm_sys_nr_t) (args : Nat → UInt64) :
    M σ (UInt64 × Bool) := do
  let answer ← sys_dispatch env sys nr args
  if answer.rc < 0 then
    sys_fail env (dvm_sys_name nr) answer.err
    pure (if answer.rc = Int64.minValue then 0x8000000000000000 else (-answer.rc).toUInt64, false)
  else
    pure (answer.rc.toUInt64, true)

end fable.dvm
