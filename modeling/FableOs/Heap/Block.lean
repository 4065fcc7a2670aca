import FableOs.Lib.ByteMem

namespace fable.heap

abbrev DEFAULT_ARENA_SIZE : Nat := 16 * 1024 * 1024
abbrev BLOCK_MAGIC : Nat := 0x424C4B21
abbrev POISON_BYTE : UInt8 := 0xDE
abbrev ALIGN : Nat := 16
abbrev MIN_PAYLOAD : Nat := 16

/-- `sizeof(block_t)`, rounded up to the alignment. -/
abbrev HDR : Nat := 32

/-- The values a `size_t` can have. -/
abbrev SIZE_RANGE : Nat := 2 ^ 64

structure block_t where
  magic : Nat
  free : Nat
  size : Nat
  prev : Nat
  next : Nat
  deriving DecidableEq, Repr

/-- The allocator's variables and the memory its headers live in. -/
structure heap_t where
  mem : Mem
  heap_head : Nat
  arena_bytes : Nat
  stat_in_use : Nat
  stat_peak : Nat
  stat_used_blocks : Nat
  stat_free_blocks : Nat
  stat_allocs : Nat
  stat_frees : Nat

/-- The header at an address: two 32-bit and three 64-bit words. -/
def header (m : Mem) (b : Nat) : block_t :=
  ⟨m.load b 4, m.load (b + 4) 4, m.load (b + 8) 8, m.load (b + 16) 8, m.load (b + 24) 8⟩

/-- Store one field of the header at `b`. -/
def put_field (m : Mem) (off w b v : Nat) : Mem := m.store (b + off) w v

abbrev put_magic (m : Mem) (b v : Nat) : Mem := put_field m 0 4 b v

abbrev put_free (m : Mem) (b v : Nat) : Mem := put_field m 4 4 b v

abbrev put_size (m : Mem) (b v : Nat) : Mem := put_field m 8 8 b v

abbrev put_prev (m : Mem) (b v : Nat) : Mem := put_field m 16 8 b v

abbrev put_next (m : Mem) (b v : Nat) : Mem := put_field m 24 8 b v

section Header

variable {m m' : Mem} {b x v i off w : Nat}

/-- A header is the same where its bytes are. -/
theorem header_congr (h : ∀ i, x ≤ i → i < x + HDR → m' i = m i) : header m' x = header m x := by
  have hword (o u : Nat) (hfield : o + u ≤ HDR) : m'.load (x + o) u = m.load (x + o) u :=
    Mem.load_congr fun i hlo hhi => h i (by omega) (by omega)
  have hmagic := hword 0 4 (by decide)
  have hfree := hword 4 4 (by decide)
  have hsize := hword 8 8 (by decide)
  have hprev := hword 16 8 (by decide)
  have hnext := hword 24 8 (by decide)
  rw [Nat.add_zero] at hmagic
  rw [header, header, hmagic, hfree, hsize, hprev, hnext]

/-- A field's bytes are inside its header. -/
theorem put_field_of_outside (hfield : off + w ≤ HDR) (h : i < b ∨ b + HDR ≤ i) : put_field m off w b v i = m i :=
  Mem.store_of_outside (by omega)

/-- Writing one header leaves the others. -/
theorem header_put_field_of_apart (hfield : off + w ≤ HDR) (h : x + HDR ≤ b ∨ b + HDR ≤ x) :
    header (put_field m off w b v) x = header m x :=
  header_congr fun _ hlo hhi => put_field_of_outside hfield (by omega)

theorem header_put_magic (h : v < 2 ^ 32) : header (put_magic m b v) b = { header m b with magic := v } := by
  simp (disch := omega) only [header, put_field, Nat.add_zero, Mem.load_store_of_apart]
  rw [Mem.load_store_self h]

theorem header_put_free (h : v < 2 ^ 32) : header (put_free m b v) b = { header m b with free := v } := by
  simp (disch := omega) only [header, put_field, Mem.load_store_of_apart]
  rw [Mem.load_store_self h]

theorem header_put_size (h : v < 2 ^ 64) : header (put_size m b v) b = { header m b with size := v } := by
  simp (disch := omega) only [header, put_field, Mem.load_store_of_apart]
  rw [Mem.load_store_self h]

theorem header_put_prev (h : v < 2 ^ 64) : header (put_prev m b v) b = { header m b with prev := v } := by
  simp (disch := omega) only [header, put_field, Mem.load_store_of_apart]
  rw [Mem.load_store_self h]

theorem header_put_next (h : v < 2 ^ 64) : header (put_next m b v) b = { header m b with next := v } := by
  simp (disch := omega) only [header, put_field, Mem.load_store_of_apart]
  rw [Mem.load_store_self h]

end Header

end fable.heap
