import FableOs.Heap.Block
import FableOs.Lib.Exec

namespace fable.heap

open fable.exec

/-- Heap code; it stops when it panics, with the text of the panic. -/
abbrev M (A : Type) := Exec String heap_t A

/-- Panic; the machine stops in the state of that moment. -/
def panic {A : Type} (text : String) : M A := Exec.stop text

def wadd (x y : Nat) : Nat := (x + y) % SIZE_RANGE

def wsub (x y : Nat) : Nat := (x + (SIZE_RANGE - y)) % SIZE_RANGE

/-- `(v + a - 1) & ~(a - 1)` -/
def align_up (v a : Nat) : Nat := wadd v (a - 1) &&& (SIZE_RANGE - 1 - (a - 1))

def payload_of (b : Nat) : Nat := b + HDR

def block_of (p : Nat) : Nat := p - HDR

def check_header (b : Nat) : M Unit := do
  let s ← Exec.read
  if (header s.mem b).magic ≠ BLOCK_MAGIC then panic "heap corruption / invalid free" else pure ()

/-- The one free block that `heap_init` makes of `size` bytes at `start`. -/
def fresh_heap (s : heap_t) (start size : Nat) : heap_t :=
  let m := put_magic s.mem start BLOCK_MAGIC
  let m := put_free m start 1
  let m := put_size m start (size - HDR)
  let m := put_prev m start 0
  let m := put_next m start 0
  ⟨m, start, size, 0, 0, 0, 1, 0, 0⟩

def heap_init (base size : Nat) : M Unit :=
  if base = 0 then panic "heap_init: NULL region"
  else
    let start := align_up base ALIGN
    let lost := wsub start base
    if size < lost then panic "heap_init: region too small"
    else if size - lost ≤ HDR + MIN_PAYLOAD then panic "heap_init: region too small"
    else Exec.modify fun s => fresh_heap s start (size - lost)

/-- Install the compiled-in arena, which the linker has put at `default_arena`. -/
def ensure_init (default_arena : Nat) : M Unit := do
  let s ← Exec.read
  if s.heap_head = 0 then heap_init default_arena DEFAULT_ARENA_SIZE else pure ()

/-- Put a free block of `size` bytes at `rest` into the list after `b`, and
    leave `b` with `keep` bytes: the lines that `split` and `kmemalign` share. -/
def insert_after (s : heap_t) (b rest size keep : Nat) : heap_t :=
  let m := put_magic s.mem rest BLOCK_MAGIC
  let m := put_free m rest 1
  let m := put_size m rest size
  let m := put_prev m rest b
  let m := put_next m rest (header m b).next
  let m := if (header m rest).next ≠ 0 then put_prev m (header m rest).next rest else m
  let m := put_next m b rest
  let m := put_size m b keep
  { s with mem := m, stat_free_blocks := wadd s.stat_free_blocks 1 }

def split (s : heap_t) (b need : Nat) : heap_t :=
  let size := (header s.mem b).size
  if size < wadd need (HDR + MIN_PAYLOAD) then s
  else insert_after s b (payload_of b + need) (wsub (wsub size need) HDR) need

def round_request (s : heap_t) (n : Nat) : Option Nat :=
  let n := if n = 0 then 1 else n
  if s.arena_bytes < n then none else some (align_up n ALIGN)

/-- A bound on the number of blocks the arena can hold. -/
def max_blocks (s : heap_t) : Nat := s.arena_bytes / HDR + 1

/-- The first-fit loop: the first block of the list that `plan` accepts. A
    list longer than the arena can hold would be walked for ever. -/
def find_block {A : Type} (plan : Nat → block_t → Option A) (oom : String) : Nat → Nat → M (Nat × A)
  | 0, _ => Exec.ofOption none
  | fuel + 1, b =>
    if b = 0 then panic oom
    else do
      let s ← Exec.read
      match plan b (header s.mem b) with
      | some a => pure (b, a)
      | none => find_block plan oom fuel (header s.mem b).next

def raise_peak (s : heap_t) : heap_t :=
  { s with stat_peak := if s.stat_peak < s.stat_in_use then s.stat_in_use else s.stat_peak }

/-- Take `n` bytes of the free block `b` into use. -/
def use_block (s : heap_t) (b n : Nat) : heap_t :=
  let s := split s b n
  let m := put_free s.mem b 0
  raise_peak { s with
    mem := m
    stat_free_blocks := wsub s.stat_free_blocks 1
    stat_used_blocks := wadd s.stat_used_blocks 1
    stat_in_use := wadd s.stat_in_use (header m b).size
    stat_allocs := wadd s.stat_allocs 1 }

def fits (n : Nat) (_b : Nat) (h : block_t) : Option Unit := if h.free = 0 ∨ h.size < n then none else some ()

def kmalloc (default_arena n : Nat) : M Nat := do
  ensure_init default_arena
  let s ← Exec.read
  match round_request s n with
  | none => panic "kmalloc: out of memory"
  | some n => do
    let (b, _) ← find_block (fits n) "kmalloc: out of memory" (max_blocks s) s.heap_head
    Exec.modify fun s => use_block s b n
    pure (payload_of b)

/-- Merge the free block `n` into its predecessor `b`. -/
def absorb (s : heap_t) (b n : Nat) : heap_t :=
  let m := put_size s.mem b (wadd (header s.mem b).size (HDR + (header s.mem n).size))
  let m := put_next m b (header m n).next
  let m := if (header m n).next ≠ 0 then put_prev m (header m n).next b else m
  let m := put_magic m n 0
  { s with mem := m, stat_free_blocks := wsub s.stat_free_blocks 1 }

def coalesce_next (b : Nat) : M Unit := do
  let s ← Exec.read
  let n := (header s.mem b).next
  if n = 0 ∨ (header s.mem n).free = 0 then pure ()
  else do
    check_header n
    Exec.modify fun s => absorb s b n

/-- Mark `b` free, count it, and poison its payload. -/
def release (s : heap_t) (b : Nat) : heap_t :=
  let m := put_free s.mem b 1
  let size := (header m b).size
  { s with
    mem := m.fill (payload_of b) POISON_BYTE size
    stat_used_blocks := wsub s.stat_used_blocks 1
    stat_free_blocks := wadd s.stat_free_blocks 1
    stat_in_use := wsub s.stat_in_use size
    stat_frees := wadd s.stat_frees 1 }

def merge_backward (b : Nat) : M Unit := do
  let s ← Exec.read
  let prev := (header s.mem b).prev
  if prev ≠ 0 ∧ (header s.mem prev).free ≠ 0 then coalesce_next prev else pure ()

def kfree (default_arena p : Nat) : M Unit :=
  if p = 0 then pure ()
  else do
    ensure_init default_arena
    let b := block_of p
    check_header b
    let s ← Exec.read
    if (header s.mem b).free ≠ 0 then panic "kfree: double free"
    else do
      Exec.modify fun s => release s b
      coalesce_next b
      merge_backward b

/-- After `split` has spun a remainder off the live block `b`. -/
def follow_split (b old : Nat) : M Unit := do
  let s ← Exec.read
  let h := header s.mem b
  if h.size = old then pure ()
  else do
    Exec.modify fun s => { s with stat_in_use := wsub s.stat_in_use (wsub old h.size) }
    if h.next ≠ 0 then coalesce_next h.next else pure ()

def shrink_in_place (b want : Nat) : M Unit := do
  let s ← Exec.read
  Exec.modify fun s => split s b want
  follow_split b (header s.mem b).size

def grow_in_place (b want : Nat) : M Unit := do
  Exec.modify fun s => { s with stat_in_use := wsub s.stat_in_use (header s.mem b).size }
  coalesce_next b
  Exec.modify fun s => split s b want
  Exec.modify fun s =>
    let m := put_free s.mem b 0
    raise_peak { s with mem := m, stat_in_use := wadd s.stat_in_use (header m b).size }

/-- The copying end of `krealloc`. -/
def move_block (default_arena p n : Nat) : M Nat := do
  let np ← kmalloc default_arena n
  Exec.modify fun s =>
    let size := (header s.mem (block_of p)).size
    { s with mem := s.mem.copy np p (if size < n then size else n) }
  kfree default_arena p
  pure np

/-- Whether the block after `b` is free and large enough to grow into. -/
def can_grow (m : Mem) (b want : Nat) : Bool :=
  let h := header m b
  h.next ≠ 0 && (header m h.next).free ≠ 0 && want ≤ wadd h.size (HDR + (header m h.next).size)

def krealloc (default_arena p n : Nat) : M Nat :=
  if p = 0 then kmalloc default_arena n
  else if n = 0 then do
    kfree default_arena p
    pure 0
  else do
    let b := block_of p
    check_header b
    let s ← Exec.read
    let want := align_up n ALIGN
    if want ≤ (header s.mem b).size then do
      shrink_in_place b want
      pure p
    else if can_grow s.mem b want then do
      grow_in_place b want
      pure p
    else move_block default_arena p n

def kcalloc (default_arena count size : Nat) : M Nat :=
  let total := count * size % SIZE_RANGE
  if size ≠ 0 ∧ total / size ≠ count then panic "kcalloc: size overflow"
  else do
    let p ← kmalloc default_arena total
    Exec.modify fun s => { s with mem := s.mem.fill p 0 total }
    pure p

/-- Where `kmemalign` would put the payload in a block, and the gap it would
    leave in front of it. -/
def align_plan (align n b : Nat) (h : block_t) : Option (Nat × Nat) :=
  if h.free = 0 then none
  else
    let pl := payload_of b
    let already := pl &&& (align - 1) = 0
    let carved := align_up (pl + HDR) align
    let carved := if wsub carved HDR = pl then wadd carved align else carved
    let aligned := if already then pl else carved
    let front_gap := if already then 0 else wsub (wsub carved HDR) pl
    if ¬ already ∧ front_gap < MIN_PAYLOAD then none
    else if wadd (payload_of b) h.size < wadd aligned n then none
    else some (aligned, front_gap)

/-- Carve the front off `b`, unless the payload is aligned where it is. -/
def place_aligned (s : heap_t) (b aligned front_gap : Nat) : heap_t × Nat :=
  if front_gap = 0 then (s, b)
  else
    let size := (header s.mem b).size
    (insert_after s b (aligned - HDR) (wsub (wadd (payload_of b) size) aligned) front_gap, aligned - HDR)

def kmemalign (default_arena align n : Nat) : M Nat := do
  ensure_init default_arena
  if align ≤ ALIGN then kmalloc default_arena n
  else if align &&& (align - 1) ≠ 0 then panic "kmemalign: alignment not power of two"
  else do
    let s ← Exec.read
    match round_request s n with
    | none => panic "kmemalign: out of memory"
    | some n => do
      let (b, aligned, front_gap) ← find_block (align_plan align n) "kmemalign: out of memory" (max_blocks s)
        s.heap_head
      let s ← Exec.read
      let (placed, target) := place_aligned s b aligned front_gap
      Exec.modify fun _ => use_block placed target n
      pure (payload_of target)

structure heap_stats_t where
  arena_size : Nat
  bytes_in_use : Nat
  bytes_free : Nat
  overhead : Nat
  peak_in_use : Nat
  free_blocks : Nat
  used_blocks : Nat
  total_allocs : Nat
  total_frees : Nat
  deriving DecidableEq, Repr

def heap_stats (default_arena : Nat) : M heap_stats_t := do
  ensure_init default_arena
  let s ← Exec.read
  let overhead := (s.stat_used_blocks + s.stat_free_blocks) * HDR % SIZE_RANGE
  pure ⟨s.arena_bytes, s.stat_in_use, wsub (wsub s.arena_bytes s.stat_in_use) overhead, overhead, s.stat_peak,
    s.stat_free_blocks, s.stat_used_blocks, s.stat_allocs, s.stat_frees⟩

/-- The walk of `heap_check`, with the bytes counted so far. -/
def check_blocks : Nat → Nat → Nat → M Nat
  | 0, _, _ => Exec.ofOption none
  | fuel + 1, b, counted =>
    if b = 0 then pure counted
    else do
      check_header b
      let s ← Exec.read
      let h := header s.mem b
      if h.next ≠ 0 ∧ (header s.mem h.next).prev ≠ b then panic "heap: broken link"
      else if h.free ≠ 0 ∧ h.next ≠ 0 ∧ (header s.mem h.next).free ≠ 0 then panic "heap: uncoalesced free blocks"
      else check_blocks fuel h.next (wadd counted (HDR + h.size))

def heap_check (default_arena : Nat) : M Nat := do
  ensure_init default_arena
  let s ← Exec.read
  let counted ← check_blocks (max_blocks s) s.heap_head 0
  if counted ≠ s.arena_bytes then panic "heap: size accounting mismatch" else pure 0

end fable.heap
