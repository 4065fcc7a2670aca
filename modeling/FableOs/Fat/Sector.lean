import Mathlib.Tactic

namespace fable.fat

/-! Sector transfers of a FAT volume and its one-sector read cache
(`fs/fat/fat_vol.c`, over the transfers of `drivers/block/block.c`). A buffer
gives the sector at each offset from its start. -/

section Device

abbrev BLOCK_SECTOR_SIZE : Nat := 512

abbrev sector_t := Vector UInt8 BLOCK_SECTOR_SIZE

structure block_device_t where
  sectors : Nat
  read_only : Bool
  data : Nat → sector_t

inductive block_error_t where
  | BLOCK_EIO
  | BLOCK_EINVAL
  | BLOCK_ENOSPC
  | BLOCK_EROFS
  | BLOCK_ETIMEDOUT
  deriving DecidableEq, Repr

/-- What the driver makes of a transfer: it works, or it fails and leaves any
    bytes where the others were to go. -/
inductive driver_t where
  | works
  | fails (error : block_error_t) (left : Nat → sector_t)

def check_range (bd : block_device_t) (lba count : Nat) : Except block_error_t Unit :=
  if count = 0 then .error .BLOCK_EINVAL
  else if lba ≥ bd.sectors then .error .BLOCK_ENOSPC
  else if count > bd.sectors - lba then .error .BLOCK_ENOSPC
  else .ok ()

/-- The answer and the buffer afterwards. -/
def block_read (bd : block_device_t) (lba count : Nat) (buf : Nat → sector_t) (drv : driver_t) :
    Except block_error_t Unit × (Nat → sector_t) :=
  match check_range bd lba count, drv with
  | .error error, _ => (.error error, buf)
  | .ok (), .fails error left => (.error error, left)
  | .ok (), .works => (.ok (), fun i => bd.data (lba + i))

def block_device_t.put (bd : block_device_t) (lba count : Nat) (src : Nat → sector_t) : block_device_t :=
  { bd with data := fun s => if lba ≤ s ∧ s < lba + count then src (s - lba) else bd.data s }

/-- The answer and the device afterwards. -/
def block_write (bd : block_device_t) (lba count : Nat) (buf : Nat → sector_t) (drv : driver_t) :
    Except block_error_t Unit × block_device_t :=
  match check_range bd lba count, bd.read_only, drv with
  | .error error, _, _ => (.error error, bd)
  | .ok (), true, _ => (.error .BLOCK_EROFS, bd)
  | .ok (), false, .fails error left => (.error error, bd.put lba count left)
  | .ok (), false, .works => (.ok (), bd.put lba count buf)

variable {bd : block_device_t} {lba count : Nat} {buf drv}

theorem le_sectors_of_check_range (h : check_range bd lba count = .ok ()) : lba + count ≤ bd.sectors := by
  simp only [check_range] at h
  split_ifs at h
  omega

theorem data_of_block_read {buf'} (h : block_read bd lba count buf drv = (.ok (), buf')) (i : Nat) :
    buf' i = bd.data (lba + i) := by
  revert h
  fun_cases block_read bd lba count buf drv <;> rintro ⟨⟩
  rfl

theorem put_of_block_write {bd'} (h : block_write bd lba count buf drv = (.ok (), bd')) :
    bd' = bd.put lba count buf := by
  revert h
  fun_cases block_write bd lba count buf drv <;> rintro ⟨⟩
  rfl

@[simp]
theorem sectors_block_write : (block_write bd lba count buf drv).2.sectors = bd.sectors := by
  fun_cases block_write bd lba count buf drv <;> rfl

/-- A write, also one that fails, keeps to the sectors it names, and to those only
    when they all exist. -/
theorem data_of_block_write {s} (hout : lba + count ≤ bd.sectors → ¬ (lba ≤ s ∧ s < lba + count)) :
    (block_write bd lba count buf drv).2.data s = bd.data s := by
  fun_cases block_write bd lba count buf drv with
  | case1 => rfl
  | case2 => rfl
  | case3 _ _ _ hrange => exact if_neg (hout (le_sectors_of_check_range hrange))
  | case4 _ hrange => exact if_neg (hout (le_sectors_of_check_range hrange))

end Device

section Volume

structure fat_vol_t where
  bd : block_device_t
  read_only : Bool
  cache_sec : UInt32
  cache_valid : Bool
  cache : sector_t

def cache_invalidate_range (v : fat_vol_t) (sec n : UInt32) : fat_vol_t :=
  { v with cache_valid := if v.cache_valid ∧ v.cache_sec ≥ sec ∧ v.cache_sec < sec + n then false else v.cache_valid }

/-- The sector the caller is shown, none for `VFS_EINVAL`. -/
def fat_sector_read (v : fat_vol_t) (sec : UInt32) (drv : driver_t) : Option sector_t × fat_vol_t :=
  if v.cache_valid ∧ v.cache_sec = sec then (some v.cache, v)
  else match block_read v.bd sec.toNat 1 (fun _ => v.cache) drv with
    | (.error _, buf) => (none, { v with cache := buf 0, cache_valid := false })
    | (.ok (), buf) => (some (buf 0), { v with cache := buf 0, cache_sec := sec, cache_valid := true })

def fat_sector_write (v : fat_vol_t) (sec : UInt32) (buf : sector_t) (drv : driver_t) : Option Unit × fat_vol_t :=
  if v.read_only then (none, v)
  else match block_write v.bd sec.toNat 1 (fun _ => buf) drv with
    | (.error _, bd) => (none, { cache_invalidate_range v sec 1 with bd })
    | (.ok (), bd) => (some (), { v with bd, cache := if v.cache_valid ∧ v.cache_sec = sec then buf else v.cache })

/-- The buffer afterwards, none for `VFS_EINVAL`. -/
def fat_sectors_read (v : fat_vol_t) (sec n : UInt32) (dst : Nat → sector_t) (drv : driver_t) :
    Option (Nat → sector_t) :=
  if n = 0 then some dst
  else match block_read v.bd sec.toNat n.toNat dst drv with
    | (.error _, _) => none
    | (.ok (), buf) => some buf

def fat_sectors_write (v : fat_vol_t) (sec n : UInt32) (src : Nat → sector_t) (drv : driver_t) :
    Option Unit × fat_vol_t :=
  if v.read_only then (none, v)
  else if n = 0 then (some (), v)
  else
    let v := cache_invalidate_range v sec n
    match block_write v.bd sec.toNat n.toNat src drv with
    | (.error _, bd) => (none, { v with bd })
    | (.ok (), bd) => (some (), { v with bd })

/-- A call of the volume's sector layer; `fat_sector_read_into` is a read whose
    bytes are copied out. -/
inductive request_t where
  | sector_read (sec : UInt32)
  | sector_write (sec : UInt32) (buf : sector_t)
  | sectors_read (sec n : UInt32) (dst : Nat → sector_t)
  | sectors_write (sec n : UInt32) (src : Nat → sector_t)

def fat_vol_t.after (v : fat_vol_t) : request_t × driver_t → fat_vol_t
  | (.sector_read sec, drv) => (fat_sector_read v sec drv).2
  | (.sector_write sec buf, drv) => (fat_sector_write v sec buf drv).2
  | (.sectors_read .., _) => v
  | (.sectors_write sec n src, drv) => (fat_sectors_write v sec n src drv).2

/-- Every read that succeeds now shows what the device holds. -/
def ReadsDevice (v : fat_vol_t) : Prop :=
  ∀ sec drv, (∀ p, (fat_sector_read v sec drv).1 = some p → p = v.bd.data sec.toNat) ∧
    ∀ n dst buf, fat_sectors_read v sec n dst drv = some buf → ∀ i < n.toNat, buf i = v.bd.data (sec.toNat + i)

end Volume

section Coherence

/-- No range of sectors wraps around, and what the cache holds, when it is valid,
    is the sector it names. -/
structure Coherent (v : fat_vol_t) : Prop where
  small : v.bd.sectors < 2 ^ 32
  holds : v.cache_valid = true → v.cache = v.bd.data v.cache_sec.toNat

variable {v : fat_vol_t} {sec n : UInt32}

theorem Coherent.reads_device (h : Coherent v) : ReadsDevice v := by
  refine fun sec drv => ⟨fun p hread => ?_, fun n dst buf hread i hi => ?_⟩
  · revert hread
    fun_cases fat_sector_read v sec drv with
    | case1 hhit =>
      rintro ⟨⟩
      exact hhit.2 ▸ h.holds hhit.1
    | case2 => exact nofun
    | case3 _ buf hblock =>
      rintro ⟨⟩
      exact data_of_block_read hblock 0
  · revert hread
    fun_cases fat_sectors_read v sec n dst drv with
    | case1 hn => simp [hn] at hi
    | case2 => exact nofun
    | case3 _ buf hblock =>
      rintro ⟨⟩
      exact data_of_block_read hblock i

theorem cache_valid_of_invalidated (h : (cache_invalidate_range v sec n).cache_valid = true) :
    v.cache_valid = true ∧ ¬ (sec ≤ v.cache_sec ∧ v.cache_sec < sec + n) := by
  simp only [cache_invalidate_range] at h
  split_ifs at h with hin
  exact ⟨h, fun hrange => hin ⟨h, hrange⟩⟩

/-- A write, also one that fails, leaves the cache coherent once it has dropped the
    sectors written. -/
theorem Coherent.written (h : Coherent v) (sec n : UInt32) (src drv) :
    Coherent { cache_invalidate_range v sec n with bd := (block_write v.bd sec.toNat n.toNat src drv).2 } := by
  refine ⟨by simpa using h.small, fun hvalid => ?_⟩
  obtain ⟨hvalid, hout⟩ := cache_valid_of_invalidated hvalid
  refine (h.holds hvalid).trans (data_of_block_write fun hfits hrange => ?_).symm
  refine hout ⟨UInt32.le_iff_toNat_le.mpr hrange.1, ?_⟩
  have hsmall := h.small
  rw [UInt32.lt_iff_toNat_lt, UInt32.toNat_add, Nat.mod_eq_of_lt (by omega)]
  exact hrange.2

theorem Coherent.replaced (h : Coherent v) (sec : UInt32) (buf) :
    Coherent { v with
      bd := v.bd.put sec.toNat 1 fun _ => buf
      cache := if v.cache_valid ∧ v.cache_sec = sec then buf else v.cache } := by
  refine ⟨h.small, fun hvalid => ?_⟩
  by_cases hhit : v.cache_sec = sec
  · simp_all [block_device_t.put]
  · have hother : ¬ (sec.toNat ≤ v.cache_sec.toNat ∧ v.cache_sec.toNat < sec.toNat + 1) := by
      rw [← UInt32.toNat_inj] at hhit
      omega
    exact (if_neg fun hboth => hhit hboth.2).trans ((h.holds hvalid).trans (if_neg hother).symm)

/-- Every request keeps the cache coherent, whatever the driver makes of it. -/
theorem Coherent.after (h : Coherent v) (r : request_t × driver_t) : Coherent (v.after r) := by
  fun_cases fat_vol_t.after v r with
  | case1 sec drv =>
    have hreads := (h.reads_device sec drv).1
    revert hreads
    fun_cases fat_sector_read v sec drv with
    | case1 => exact fun _ => h
    | case2 => exact fun _ => ⟨h.small, nofun⟩
    | case3 => exact fun hreads => ⟨h.small, fun _ => hreads _ rfl⟩
  | case2 sec buf drv =>
    fun_cases fat_sector_write v sec buf drv with
    | case1 => exact h
    | case2 _ _ bd hblock =>
      obtain rfl : _ = bd := congrArg Prod.snd hblock
      exact h.written sec 1 _ drv
    | case3 _ bd hblock =>
      obtain rfl := put_of_block_write hblock
      exact h.replaced sec buf
  | case3 => exact h
  | case4 sec n src drv =>
    fun_cases fat_sectors_write v sec n src drv with
    | case1 => exact h
    | case2 => exact h
    | case3 _ _ _ _ bd hblock =>
      obtain rfl : _ = bd := congrArg Prod.snd hblock
      exact h.written sec n src drv
    | case4 _ _ _ bd hblock =>
      obtain rfl : _ = bd := congrArg Prod.snd hblock
      exact h.written sec n src drv

theorem Coherent.run (h : Coherent v) (rs : List (request_t × driver_t)) : Coherent (rs.foldl fat_vol_t.after v) := by
  induction rs generalizing v with
  | nil => exact h
  | cons r rs ih => exact ih (h.after r)

end Coherence

section Disk

abbrev ATA_LBA28_MAX : Nat := 0x0FFFFFFF

/-- The capacity with which `ata_probe_drive` registers a disk, from the words that
    IDENTIFY gives; none for a disk that is skipped. Word 83 says whether words
    100 to 103 hold the capacity of a larger disk, which is cut to what the driver
    can address. -/
def ata_capacity (id : Vector UInt16 256) : Option Nat :=
  let sectors := id[60].toNat ||| id[61].toNat <<< 16
  let lba48 :=
    if id[83].toNat &&& 1 <<< 10 ≠ 0 then
      id[100].toNat ||| id[101].toNat <<< 16 ||| id[102].toNat <<< 32 ||| id[103].toNat <<< 48
    else 0
  let sectors := if lba48 > sectors then lba48 else sectors
  if sectors = 0 then none
  else if sectors > ATA_LBA28_MAX then some ATA_LBA28_MAX
  else some sectors

theorem ata_capacity_lt {id : Vector UInt16 256} {sectors : Nat} (h : ata_capacity id = some sectors) :
    sectors < 2 ^ 32 := by
  have hmax : ATA_LBA28_MAX < 2 ^ 32 := by decide
  simp only [ata_capacity] at h
  split_ifs at h <;> cases h <;> omega

/-- The cache is never seen: on a disk as the driver registers it, from a volume
    whose cache is still empty, whatever is asked and whatever fails, every read
    that succeeds shows what the device holds. A disk has fewer than 2^32 sectors,
    so no range that is written wraps around. -/
theorem cache_unobservable (id : Vector UInt16 256) (v : fat_vol_t) (rs : List (request_t × driver_t))
    (hdisk : ata_capacity id = some v.bd.sectors) (hcold : v.cache_valid = false) :
    ReadsDevice (rs.foldl fat_vol_t.after v) := by
  have hcoherent : Coherent v := ⟨ata_capacity_lt hdisk, fun hvalid => by simp [hcold] at hvalid⟩
  exact (hcoherent.run rs).reads_device

/-- A disk that says it is larger than the driver can address. -/
def large_disk : Vector UInt16 256 := ((Vector.replicate 256 0).set 83 0x400).set 102 1

/-- A volume as it is mounted, on a blank disk. -/
def mounted (sectors : Nat) : fat_vol_t :=
  ⟨⟨sectors, false, fun _ => .replicate _ 0⟩, false, 0, false, .replicate _ 0⟩

/-- Sector 5 is read and overwritten, alone and in a range, and a write over it
    fails half way; then sector 6 is read. -/
def rewritten : List (request_t × driver_t) :=
  [(.sector_read 5, .works), (.sector_write 5 (.replicate _ 1), .works), (.sector_read 5, .works),
    (.sectors_write 4 3 (fun _ => .replicate _ 2), .works), (.sector_read 5, .works),
    (.sectors_write 5 1 (fun _ => .replicate _ 3), .fails .BLOCK_ETIMEDOUT fun _ => .replicate _ 4),
    (.sector_read 6, .works)]

theorem rewritten_sector_shown : ata_capacity large_disk = some ATA_LBA28_MAX ∧
    ReadsDevice (rewritten.foldl fat_vol_t.after (mounted ATA_LBA28_MAX)) ∧
    (fat_sector_read (rewritten.foldl fat_vol_t.after (mounted ATA_LBA28_MAX)) 5 .works).1 = some (.replicate _ 4) := by
  have hdisk : ata_capacity large_disk = some ATA_LBA28_MAX := by decide +kernel
  refine ⟨hdisk, cache_unobservable large_disk _ rewritten hdisk rfl, rfl⟩

end Disk

end fable.fat
