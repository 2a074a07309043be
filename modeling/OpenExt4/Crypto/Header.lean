import OpenExt4.Crypto.Medium

set_option autoImplicit false

/-! # The two copies of a LUKS2 header

LUKS2 keeps its binary header and the metadata area behind it twice, each copy with a sequence id
and a checksum over itself. `luks2Load` takes the newer of the copies that pass their checks. -/

namespace Luks

open Bytes

/-! ## The source -/

def luksMagic : Buf 6 := fun i => [0x4c, 0x55, 0x4b, 0x53, 0xba, 0xbe].getD i 0

def l2MagicSecondary : Buf 6 := fun i => [0x53, 0x4b, 0x55, 0x4c, 0xba, 0xbe].getD i 0

def l1Version : ℕ := 6

@[irreducible] def l2BinLen : ℕ := 4096

def l2HdrSize : ℕ := 8

def l2Seqid : ℕ := 16

def l2ChecksumAlg : ℕ := 72

def l2Uuid : ℕ := 168

def l2Csum : ℕ := 448

def l2MaxHdr : ℕ := 2 ^ 22

def luksUuidLen : ℕ := 40

/-- One decoded copy of the header. -/
structure Luks2Header where
  seqid : ℕ
  hdrSize : ℕ
  uuid : Buf luksUuidLen
  /-- the metadata area up to its first NUL: `json_len` characters of `json` -/
  json : List UInt8

/-- The platform under the header code: its hash functions, and whether the memory asked for is
    there. -/
structure Machine where
  sha : (a : CryptoHash) → List UInt8 → Buf a.size
  /-- `malloc base n`: `n` bytes for the copy at `base` -/
  malloc : ℕ → ℕ → Bool
  /-- the token array -/
  calloc : Bool

/-- What the checksum covers: the binary header with its own field zeroed, then the metadata. -/
def checksummed (bin : Buf l2BinLen) (json : List UInt8) : List UInt8 :=
  toList (patch bin l2Csum 64 fun _ => 0) ++ json

def luks2ChecksumOk (mc : Machine) (base : ℕ) (bin : Buf l2BinLen) (json : List UInt8)
    (hash : CryptoHash) : Bool :=
  let digestLen := hash.size
  if digestLen = 0 ∨ 64 < digestLen then false
  else if mc.malloc base (l2BinLen + json.length) = false then false
  else decide (mc.sha hash (checksummed bin json) = slice bin l2Csum digestLen)

/-- Read one copy of the header from `base`, verifying it before returning it. -/
def luks2ReadCopy (mc : Machine) (m : Medium) (base : ℕ) (magic : Buf 6) :
    Option Luks2Header := do
  let bin ← m.read base l2BinLen
  guard (slice bin 0 6 = magic)
  guard (getBE 2 bin l1Version = 2)
  let hdrSize := getBE 8 bin l2HdrSize
  guard (¬ (hdrSize ≤ l2BinLen ∨ l2MaxHdr < hdrSize))
  let jsonLen := hdrSize - l2BinLen
  guard (mc.malloc base (jsonLen + 1) = true)
  let json ← m.read (base + l2BinLen) jsonLen
  let hash ← cryptoHashByName (cString (toList (slice bin l2ChecksumAlg 32)))
  guard (luks2ChecksumOk mc base bin (toList json) hash = true)
  return {
    seqid := getBE 8 bin l2Seqid
    hdrSize := hdrSize
    uuid := slice bin l2Uuid luksUuidLen
    json := cString (toList json) }

/-- The newer of the two copies that still passes its own checksum. -/
def luks2Load (mc : Machine) (m : Medium) : Option Luks2Header :=
  let primary := luks2ReadCopy mc m 0 luksMagic
  let secondary :=
    match primary with
    | some p => luks2ReadCopy mc m p.hdrSize l2MagicSecondary
    | none => luks2ReadCopy mc m 16384 l2MagicSecondary
  match primary, secondary with
  | some p, some s => if s.seqid > p.seqid then some s else some p
  | some p, none => some p
  | none, some s => some s
  | none, none => none

/-! ## Sound copies -/

/-- A copy of the header as it lies on a medium: the binary header, and the bytes behind it. -/
structure HeaderCopy where
  bin : Buf l2BinLen
  json : List UInt8

namespace HeaderCopy

/-- The size field: the binary header and the metadata area together. -/
def size (c : HeaderCopy) : ℕ := getBE 8 c.bin l2HdrSize

/-- The name of the checksum's hash function. -/
def checksumAlg (c : HeaderCopy) : List UInt8 := cString (toList (slice c.bin l2ChecksumAlg 32))

/-- What a copy says. -/
def header (c : HeaderCopy) : Luks2Header where
  seqid := getBE 8 c.bin l2Seqid
  hdrSize := c.size
  uuid := slice c.bin l2Uuid luksUuidLen
  json := cString c.json

/-- **A copy in order**: the magic of its place, the version, a size in bounds, and a checksum
    that its own bytes have. -/
structure Sound (sha : (a : CryptoHash) → List UInt8 → Buf a.size) (c : HeaderCopy)
    (magic : Buf 6) : Prop where
  magic : slice c.bin 0 6 = magic
  version : getBE 2 c.bin l1Version = 2
  large : l2BinLen < c.size
  small : c.size ≤ l2MaxHdr
  area : c.json.length = c.size - l2BinLen
  checksum : ∃ a, cryptoHashByName c.checksumAlg = some a ∧
    sha a (checksummed c.bin c.json) = slice c.bin l2Csum a.size

end HeaderCopy

/-- The size field of what lies at `base`. -/
def Medium.sizeAt (m : Medium) (base : ℕ) : ℕ := getBE 8 (m.window base l2BinLen) l2HdrSize

/-- The `n` bytes from `off` on, in order. -/
def Medium.area (m : Medium) (off n : ℕ) : List UInt8 := toList (m.window off n)

/-- The copy at `base`, its metadata as long as its size field says. -/
def Medium.copyAt (m : Medium) (base : ℕ) : HeaderCopy where
  bin := m.window base l2BinLen
  json := m.area (base + l2BinLen) (m.sizeAt base - l2BinLen)

/-- What the copy at `base` says. -/
def Medium.headerAt (m : Medium) (base : ℕ) : Luks2Header := (m.copyAt base).header

/-- The copy at `base` can be read into memory, all of it. -/
structure Readable (mc : Machine) (m : Medium) (base : ℕ) : Prop where
  bin : m.fails base l2BinLen = false
  area : m.fails (base + l2BinLen) (m.sizeAt base - l2BinLen) = false
  hold : mc.malloc base (m.sizeAt base - l2BinLen + 1) = true
  check : mc.malloc base (l2BinLen + (m.sizeAt base - l2BinLen)) = true

/-- The copy at `base` can be read and is in order. -/
structure Good (mc : Machine) (m : Medium) (base : ℕ) (magic : Buf 6) : Prop where
  readable : Readable mc m base
  sound : (m.copyAt base).Sound mc.sha magic

/-! ## Reading a copy -/

variable {mc : Machine} {m m' : Medium} {base : ℕ} {magic : Buf 6}

@[simp] theorem Medium.length_area (off n : ℕ) : (m.area off n).length = n := List.length_ofFn

theorem Medium.size_copyAt : (m.copyAt base).size = m.sizeAt base := rfl

theorem Medium.hdrSize_headerAt : (m.headerAt base).hdrSize = m.sizeAt base := rfl

theorem Medium.length_copyAt : (m.copyAt base).json.length = (m.copyAt base).size - l2BinLen := by
  rw [Medium.size_copyAt]
  exact m.length_area _ _

theorem bind_guard_eq_some {α : Type} {p : Prop} [Decidable p] {f : Unit → Option α} {a : α} :
    (guard p >>= f) = some a ↔ p ∧ f () = some a := by
  by_cases h : p <;> simp [guard, h]

theorem bind_read_eq_some {α : Type} {off n : ℕ} {f : Buf n → Option α} {a : α} :
    (m.read off n >>= f) = some a ↔ m.fails off n = false ∧ f (m.window off n) = some a := by
  unfold Medium.read
  cases m.fails off n <;> simp

theorem luks2ChecksumOk_iff {bin : Buf l2BinLen} {json : List UInt8} {hash : CryptoHash} :
    luks2ChecksumOk mc base bin json hash = true ↔
      mc.malloc base (l2BinLen + json.length) = true ∧
        mc.sha hash (checksummed bin json) = slice bin l2Csum hash.size := by
  have hsize : ¬ (hash.size = 0 ∨ 64 < hash.size) := by
    have hpos := hash.size_pos
    have hle := hash.size_le
    omega
  simp only [luks2ChecksumOk, if_neg hsize]
  cases mc.malloc base (l2BinLen + json.length) <;> simp

/-- **A copy is read exactly when it is good**, and what is read is what it says. -/
theorem luks2ReadCopy_eq_some {h : Luks2Header} :
    luks2ReadCopy mc m base magic = some h ↔ Good mc m base magic ∧ h = m.headerAt base := by
  have hsizeAt : getBE 8 (m.window base l2BinLen) l2HdrSize = m.sizeAt base := rfl
  have harea (off n : ℕ) : toList (m.window off n) = m.area off n := rfl
  simp only [luks2ReadCopy, bind_guard_eq_some, bind_read_eq_some, harea, hsizeAt]
  simp only [Option.bind_eq_bind, Option.bind_eq_some_iff, Option.guard_eq_some',
    luks2ChecksumOk_iff, Medium.length_area, not_or, not_le, not_lt]
  constructor
  · rintro ⟨hbin, hmagic, hversion, ⟨hlarge, hsmall⟩, hhold, hread, hash, halg, -, ⟨hcheck, hsum⟩, hh⟩
    have hreadable : Readable mc m base := ⟨hbin, hread, hhold, hcheck⟩
    have hsound : (m.copyAt base).Sound mc.sha magic :=
      ⟨hmagic, hversion, hlarge, hsmall, m.length_copyAt, hash, halg, hsum⟩
    exact ⟨⟨hreadable, hsound⟩, (Option.some.inj hh).symm⟩
  · rintro ⟨⟨hreadable, hsound⟩, rfl⟩
    obtain ⟨hash, halg, hsum⟩ := hsound.checksum
    exact ⟨hreadable.bin, hsound.magic, hsound.version, ⟨hsound.large, hsound.small⟩,
      hreadable.hold, hreadable.area, hash, halg, (), ⟨hreadable.check, hsum⟩, rfl⟩

theorem luks2ReadCopy_of_good (h : Good mc m base magic) :
    luks2ReadCopy mc m base magic = some (m.headerAt base) :=
  luks2ReadCopy_eq_some.mpr ⟨h, rfl⟩

theorem luks2ReadCopy_of_not_good (h : ¬ Good mc m base magic) :
    luks2ReadCopy mc m base magic = none := by
  cases hread : luks2ReadCopy mc m base magic with
  | none => rfl
  | some copy => exact absurd (luks2ReadCopy_eq_some.mp hread).1 h

/-! ## Media that look alike -/

/-- Two media that look alike between `lo` and `hi`: the same bytes, and the same reads fail. -/
structure Alike (m m' : Medium) (lo hi : ℕ) : Prop where
  bytes : ∀ x, lo ≤ x → x < hi → m.bytes x = m'.bytes x
  fails : ∀ off n, lo ≤ off → off + n ≤ hi → m.fails off n = m'.fails off n

theorem Alike.symm {lo hi : ℕ} (h : Alike m m' lo hi) : Alike m' m lo hi :=
  ⟨fun x hlo hhi => (h.bytes x hlo hhi).symm, fun off n hlo hhi => (h.fails off n hlo hhi).symm⟩

theorem Alike.mono {lo hi lo' hi' : ℕ} (h : Alike m m' lo hi) (hlo : lo ≤ lo') (hhi : hi' ≤ hi) :
    Alike m m' lo' hi' :=
  ⟨fun x h₁ h₂ => h.bytes x (hlo.trans h₁) (h₂.trans_le hhi),
    fun off n h₁ h₂ => h.fails off n (hlo.trans h₁) (h₂.trans hhi)⟩

theorem Alike.window {lo hi off n : ℕ} (h : Alike m m' lo hi) (hlo : lo ≤ off)
    (hhi : off + n ≤ hi) : m.window off n = m'.window off n :=
  Medium.window_congr fun x h₁ h₂ => h.bytes x (hlo.trans h₁) (h₂.trans_le hhi)

/-- What lies outside of a good copy has no part in it. -/
theorem Good.congr (h : Good mc m base magic) (halike : Alike m m' base (base + m.sizeAt base)) :
    Good mc m' base magic ∧ m'.headerAt base = m.headerAt base := by
  have hlarge : l2BinLen < m.sizeAt base := h.sound.large
  have hbin : m.window base l2BinLen = m'.window base l2BinLen :=
    halike.window le_rfl (by omega)
  have hsize : m.sizeAt base = m'.sizeAt base := by rw [Medium.sizeAt, Medium.sizeAt, hbin]
  have harea : m.area (base + l2BinLen) (m.sizeAt base - l2BinLen)
      = m'.area (base + l2BinLen) (m.sizeAt base - l2BinLen) :=
    congrArg toList (halike.window (by omega) (by omega))
  have hcopy : m'.copyAt base = m.copyAt base := by
    rw [Medium.copyAt, Medium.copyAt, ← hbin, ← hsize, harea]
  have hreadable : Readable mc m' base := by
    refine ⟨?_, ?_, ?_, ?_⟩
    · rw [← halike.fails _ _ le_rfl (by omega)]
      exact h.readable.bin
    · rw [← hsize, ← halike.fails _ _ (by omega) (by omega)]
      exact h.readable.area
    · rw [← hsize]
      exact h.readable.hold
    · rw [← hsize]
      exact h.readable.check
  exact ⟨⟨hreadable, hcopy ▸ h.sound⟩, by rw [Medium.headerAt, hcopy]; rfl⟩

/-! ## The newer copy -/

/-- Where the secondary copy is looked for: behind a primary in order, else at the usual place. -/
inductive Located (mc : Machine) (m : Medium) : ℕ → Prop where
  | beside (hprimary : Good mc m 0 luksMagic) : Located mc m (m.sizeAt 0)
  | usual (hprimary : ¬ Good mc m 0 luksMagic) : Located mc m 16384

/-- **What a loader owes**: the newest of the good copies that it can find, the primary on a tie. -/
structure Newest (mc : Machine) (m : Medium) (r : Option Luks2Header) : Prop where
  sound : ∀ h, r = some h → (Good mc m 0 luksMagic ∧ h = m.headerAt 0) ∨
    ∃ s, Located mc m s ∧ Good mc m s l2MagicSecondary ∧ h = m.headerAt s
  primary : ∀ h, r = some h → Good mc m 0 luksMagic → (m.headerAt 0).seqid ≤ h.seqid
  secondary : ∀ h s, r = some h → Located mc m s → Good mc m s l2MagicSecondary →
    (m.headerAt s).seqid ≤ h.seqid
  tie : Good mc m 0 luksMagic → (∀ s, Located mc m s → Good mc m s l2MagicSecondary →
    (m.headerAt s).seqid ≤ (m.headerAt 0).seqid) → r = some (m.headerAt 0)
  found : (Good mc m 0 luksMagic ∨ ∃ s, Located mc m s ∧ Good mc m s l2MagicSecondary) →
    r ≠ none

/-- With a good primary the secondary is looked for behind it. -/
theorem Located.eq_of_good {s : ℕ} (h : Located mc m s) (hprimary : Good mc m 0 luksMagic) :
    s = m.sizeAt 0 := by
  cases h with
  | beside => rfl
  | usual hbad => exact absurd hprimary hbad

/-- Without one it is looked for at the usual place. -/
theorem Located.eq_of_not_good {s : ℕ} (h : Located mc m s)
    (hprimary : ¬ Good mc m 0 luksMagic) : s = 16384 := by
  cases h with
  | beside hgood => exact absurd hgood hprimary
  | usual => rfl

/-- A bad primary leaves the secondary at the usual place. -/
theorem luks2Load_of_not_good (h : ¬ Good mc m 0 luksMagic) :
    luks2Load mc m = luks2ReadCopy mc m 16384 l2MagicSecondary := by
  rw [luks2Load, luks2ReadCopy_of_not_good h]
  cases luks2ReadCopy mc m 16384 l2MagicSecondary <;> rfl

/-- A good primary is taken unless the copy behind it is good and newer. -/
theorem luks2Load_of_good (h : Good mc m 0 luksMagic) :
    luks2Load mc m = match luks2ReadCopy mc m (m.sizeAt 0) l2MagicSecondary with
      | some s => if s.seqid > (m.headerAt 0).seqid then some s else some (m.headerAt 0)
      | none => some (m.headerAt 0) := by
  rw [luks2Load, luks2ReadCopy_of_good h]
  simp only [Medium.hdrSize_headerAt]
  cases luks2ReadCopy mc m (m.sizeAt 0) l2MagicSecondary <;> rfl

theorem luks2Load_of_no_secondary (h : Good mc m 0 luksMagic)
    (hbad : ¬ Good mc m (m.sizeAt 0) l2MagicSecondary) :
    luks2Load mc m = some (m.headerAt 0) := by
  rw [luks2Load_of_good h, luks2ReadCopy_of_not_good hbad]

theorem luks2Load_of_secondary (h : Good mc m 0 luksMagic)
    (hgood : Good mc m (m.sizeAt 0) l2MagicSecondary) :
    luks2Load mc m = if (m.headerAt (m.sizeAt 0)).seqid > (m.headerAt 0).seqid
      then some (m.headerAt (m.sizeAt 0)) else some (m.headerAt 0) := by
  rw [luks2Load_of_good h, luks2ReadCopy_of_good hgood]

theorem luks2Load_newest (mc : Machine) (m : Medium) : Newest mc m (luks2Load mc m) := by
  by_cases hprimary : Good mc m 0 luksMagic
  · have hlocated : Located mc m (m.sizeAt 0) := .beside hprimary
    by_cases hsecondary : Good mc m (m.sizeAt 0) l2MagicSecondary
    · have hload := luks2Load_of_secondary hprimary hsecondary
      by_cases hnewer : (m.headerAt (m.sizeAt 0)).seqid > (m.headerAt 0).seqid
      · rw [if_pos hnewer] at hload
        rw [hload]
        refine ⟨?_, ?_, ?_, ?_, ?_⟩
        · rintro h ⟨rfl⟩
          exact .inr ⟨_, hlocated, hsecondary, rfl⟩
        · rintro h ⟨rfl⟩ -
          exact hnewer.le
        · rintro h s ⟨rfl⟩ hs -
          rw [hs.eq_of_good hprimary]
        · intro _ hall
          exact absurd (hall _ hlocated hsecondary) hnewer.not_ge
        · simp
      · rw [if_neg hnewer] at hload
        rw [hload]
        refine ⟨?_, ?_, ?_, fun _ _ => rfl, by simp⟩
        · rintro h ⟨rfl⟩
          exact .inl ⟨hprimary, rfl⟩
        · rintro h ⟨rfl⟩ -
          exact le_rfl
        · rintro h s ⟨rfl⟩ hs -
          rw [hs.eq_of_good hprimary]
          exact not_lt.mp hnewer
    · rw [luks2Load_of_no_secondary hprimary hsecondary]
      refine ⟨?_, ?_, ?_, fun _ _ => rfl, by simp⟩
      · rintro h ⟨rfl⟩
        exact .inl ⟨hprimary, rfl⟩
      · rintro h ⟨rfl⟩ -
        exact le_rfl
      · rintro h s ⟨rfl⟩ hs hgood
        rw [hs.eq_of_good hprimary] at hgood
        exact absurd hgood hsecondary
  · have hlocated : Located mc m 16384 := .usual hprimary
    rw [luks2Load_of_not_good hprimary]
    refine ⟨?_, fun _ _ h => absurd h hprimary, ?_, fun h => absurd h hprimary, ?_⟩
    · intro h hread
      obtain ⟨hgood, rfl⟩ := luks2ReadCopy_eq_some.mp hread
      exact .inr ⟨_, hlocated, hgood, rfl⟩
    · intro h s hread hs _
      obtain ⟨-, rfl⟩ := luks2ReadCopy_eq_some.mp hread
      rw [hs.eq_of_not_good hprimary]
    · rintro (hgood | ⟨s, hs, hgood⟩)
      · exact absurd hgood hprimary
      · rw [hs.eq_of_not_good hprimary] at hgood
        rw [luks2ReadCopy_of_good hgood]
        simp

/-! ## Torn copies -/

/-- A good copy is small, so what lies beyond the largest one has no part in it. -/
theorem Good.congr_max (h : Good mc m base magic)
    (halike : Alike m m' base (base + l2MaxHdr)) :
    Good mc m' base magic ∧ m'.headerAt base = m.headerAt base :=
  h.congr (halike.mono le_rfl (Nat.add_le_add_left h.sound.small _))

theorem luks2ReadCopy_congr (halike : Alike m m' base (base + l2MaxHdr)) :
    luks2ReadCopy mc m base magic = luks2ReadCopy mc m' base magic := by
  by_cases h : Good mc m base magic
  · obtain ⟨h', hsame⟩ := h.congr_max halike
    rw [luks2ReadCopy_of_good h, luks2ReadCopy_of_good h', hsame]
  · have h' : ¬ Good mc m' base magic := fun hgood => h (hgood.congr_max halike.symm).1
    rw [luks2ReadCopy_of_not_good h, luks2ReadCopy_of_not_good h']

/-- Nothing of a bad primary is in the result. -/
theorem luks2Load_congr_primary (h : ¬ Good mc m 0 luksMagic) (h' : ¬ Good mc m' 0 luksMagic)
    (halike : Alike m m' 16384 (16384 + l2MaxHdr)) : luks2Load mc m = luks2Load mc m' := by
  rw [luks2Load_of_not_good h, luks2Load_of_not_good h', luks2ReadCopy_congr halike]

/-- Nothing of a bad secondary is in the result. -/
theorem luks2Load_congr_secondary (h : Good mc m 0 luksMagic)
    (hbad : ¬ Good mc m' (m.sizeAt 0) l2MagicSecondary) (halike : Alike m m' 0 (m.sizeAt 0)) :
    luks2Load mc m' = some (m.headerAt 0) := by
  have hbehind : Alike m m' 0 (0 + m.sizeAt 0) := by
    rw [Nat.zero_add]
    exact halike
  obtain ⟨h', hsame⟩ := h.congr hbehind
  have hsize : m'.sizeAt 0 = m.sizeAt 0 := by
    rw [← Medium.hdrSize_headerAt, hsame, Medium.hdrSize_headerAt]
  have hbad' : ¬ Good mc m' (m'.sizeAt 0) l2MagicSecondary := by
    rw [hsize]
    exact hbad
  rw [luks2Load_of_no_secondary h' hbad', hsame]

/-- **Header selection tolerates a torn copy.** The loader takes the newest good copy that it can
    find, the primary on a tie; a copy that fails its checks has no part in the result; and of two
    copies of 16384 bytes either one alone is enough. -/
theorem newest_copy_selected (mc : Machine) (m : Medium) :
    Newest mc m (luks2Load mc m) ∧
    (∀ m', ¬ Good mc m 0 luksMagic → ¬ Good mc m' 0 luksMagic →
      Alike m m' 16384 (16384 + l2MaxHdr) → luks2Load mc m = luks2Load mc m') ∧
    (∀ m', Good mc m 0 luksMagic → ¬ Good mc m (m.sizeAt 0) l2MagicSecondary →
      ¬ Good mc m' (m.sizeAt 0) l2MagicSecondary → Alike m m' 0 (m.sizeAt 0) →
      luks2Load mc m = luks2Load mc m') ∧
    (∀ m', Good mc m 0 luksMagic → Good mc m 16384 l2MagicSecondary → m.sizeAt 0 = 16384 →
      m.sizeAt 16384 = 16384 →
      (¬ Good mc m' 0 luksMagic → Alike m m' 16384 (16384 + 16384) →
        luks2Load mc m' = some (m.headerAt 16384)) ∧
      (¬ Good mc m' 16384 l2MagicSecondary → Alike m m' 0 16384 →
        luks2Load mc m' = some (m.headerAt 0))) := by
  refine ⟨luks2Load_newest mc m, fun m' => luks2Load_congr_primary, ?_, ?_⟩
  · intro m' h hbad hbad' halike
    rw [luks2Load_congr_secondary h hbad' halike, luks2Load_of_no_secondary h hbad]
  · intro m' h hsecondary hsize hsize'
    constructor
    · intro hbad halike
      have hbehind : Alike m m' 16384 (16384 + m.sizeAt 16384) := by
        rw [hsize']
        exact halike
      obtain ⟨hgood, hsame⟩ := hsecondary.congr hbehind
      rw [luks2Load_of_not_good hbad, luks2ReadCopy_of_good hgood, hsame]
    · intro hbad halike
      exact luks2Load_congr_secondary h (by rwa [hsize]) (by rwa [hsize])

/-! ## The offset that a copy records -/

/-- Bytes 256 to 263 of the binary header: the offset that the copy says it lies at. No function
    of the loader reads them. -/
def HeaderCopy.recordedOffset (c : HeaderCopy) : ℕ := getBE 8 c.bin 256

/-- The binary header of a primary of 8192 bytes that records the offset given, with its checksum
    still to come. -/
def headerByte (recorded : UInt8) (x : ℕ) : UInt8 :=
  [(0, 0x4c), (1, 0x55), (2, 0x4b), (3, 0x53), (4, 0xba), (5, 0xbe), (7, 2), (14, 0x20),
    (72, 0x73), (73, 0x68), (74, 0x61), (75, 0x31), (263, recorded)].lookup x |>.getD 0

def headerBin (recorded : UInt8) : Buf l2BinLen := fun i => headerByte recorded i

/-- A document in a metadata area of 4096 bytes. -/
def padded (json : List UInt8) : List UInt8 := toList fun i : Fin 4096 => json.getD i 0

/-- A container with such a primary, its checksum in place, the document behind it, and zeros. -/
def container (mc : Machine) (recorded : UInt8) (json : List UInt8) : Medium where
  bytes x :=
    if l2Csum ≤ x ∧ x < l2Csum + 20 then
      get8 (mc.sha .sha1 (checksummed (headerBin recorded) (padded json))) (x - l2Csum)
    else if x < 4096 then headerByte recorded x
    else if x < 8192 then json.getD (x - 4096) 0
    else 0
  fails _ _ := false

section container

variable {recorded : UInt8} {json : List UInt8}

theorem l2BinLen_eq : l2BinLen = 4096 := by decide +kernel

theorem container_get8 {i : ℕ} (h : i < l2Csum ∨ l2Csum + 20 ≤ i) :
    get8 ((container mc recorded json).window 0 l2BinLen) i = get8 (headerBin recorded) i := by
  have hout : ¬ (l2Csum ≤ i ∧ i < l2Csum + 20) := by omega
  unfold get8
  split
  · next hi =>
      have hin : i < 4096 := l2BinLen_eq ▸ hi
      simp [Medium.window, container, headerBin, hout, hin]
  · rfl

/-- A field in front of the checksum is that of the binary header. -/
theorem container_getBE {w o : ℕ} (h : o + w ≤ l2Csum) :
    getBE w ((container mc recorded json).window 0 l2BinLen) o = getBE w (headerBin recorded) o :=
  getBE_congr fun _ _ hi => container_get8 (.inl (by omega))

theorem container_slice {o n : ℕ} (h : o + n ≤ l2Csum) :
    slice ((container mc recorded json).window 0 l2BinLen) o n = slice (headerBin recorded) o n :=
  slice_congr fun _ _ hi => container_get8 (.inl (by omega))

/-- Only one byte of the binary header depends on the recorded offset. -/
theorem headerBin_get8 {i : ℕ} (h : i ≠ 263) :
    get8 (headerBin recorded) i = get8 (headerBin 0) i := by
  have hbyte : headerByte recorded i = headerByte 0 i := by
    have hne : (i == 263) = false := by simpa using h
    simp [headerByte, List.lookup_cons, hne]
  simp [get8, headerBin, hbyte]

theorem headerBin_size : getBE 8 (headerBin recorded) l2HdrSize = 8192 := by
  have hsame : getBE 8 (headerBin recorded) l2HdrSize = getBE 8 (headerBin 0) l2HdrSize :=
    getBE_congr fun i _ hi => headerBin_get8 (by unfold l2HdrSize at hi; omega)
  rw [hsame]
  decide +kernel

theorem container_sizeAt : (container mc recorded json).sizeAt 0 = 8192 := by
  rw [Medium.sizeAt, container_getBE (by decide), headerBin_size]

theorem container_json : ((container mc recorded json).copyAt 0).json = padded json := by
  have harea : ((container mc recorded json).copyAt 0).json
      = (container mc recorded json).area (0 + l2BinLen)
          ((container mc recorded json).sizeAt 0 - l2BinLen) := rfl
  have hwindow : (container mc recorded json).window 4096 4096
      = fun i : Fin 4096 => json.getD i 0 := by
    funext i
    have hi := i.isLt
    have hout : ¬ (l2Csum ≤ 4096 + i.val ∧ 4096 + i.val < l2Csum + 20) := by
      unfold l2Csum
      omega
    have hbehind : ¬ 4096 + i.val < 4096 := by omega
    have hin : 4096 + i.val < 8192 := by omega
    simp only [Medium.window, container, if_neg hout, if_neg hbehind, if_pos hin,
      Nat.add_sub_cancel_left]
  rw [harea, container_sizeAt, l2BinLen_eq, Medium.area]
  exact congrArg toList hwindow

theorem container_checksummed :
    checksummed ((container mc recorded json).window 0 l2BinLen) (padded json)
      = checksummed (headerBin recorded) (padded json) := by
  have hpatch : patch ((container mc recorded json).window 0 l2BinLen) l2Csum 64 (fun _ => 0)
      = patch (headerBin recorded) l2Csum 64 fun _ => 0 := by
    refine ext_get8 fun i hi => ?_
    rw [get8_patch, get8_patch]
    split
    · rfl
    · exact container_get8 (by omega)
  rw [checksummed, checksummed, hpatch]

/-- The primary of the container is good, wherever it says that it lies. -/
theorem container_good (hmalloc : ∀ base n, mc.malloc base n = true) :
    Good mc (container mc recorded json) 0 luksMagic := by
  have hcopy : ((container mc recorded json).copyAt 0).bin
      = (container mc recorded json).window 0 l2BinLen := rfl
  have hmagic : slice ((container mc recorded json).window 0 l2BinLen) 0 6 = luksMagic := by
    have hsame : slice (headerBin recorded) 0 6 = slice (headerBin 0) 0 6 :=
      slice_congr fun i _ hi => headerBin_get8 (by omega)
    rw [container_slice (by decide), hsame]
    decide +kernel
  have hversion : getBE 2 ((container mc recorded json).window 0 l2BinLen) l1Version = 2 := by
    have hsame : getBE 2 (headerBin recorded) l1Version = getBE 2 (headerBin 0) l1Version :=
      getBE_congr fun i _ hi => headerBin_get8 (by unfold l1Version at hi; omega)
    rw [container_getBE (by decide), hsame]
    decide +kernel
  have halg : cryptoHashByName ((container mc recorded json).copyAt 0).checksumAlg
      = some .sha1 := by
    have hsame : slice (headerBin recorded) l2ChecksumAlg 32
        = slice (headerBin 0) l2ChecksumAlg 32 :=
      slice_congr fun i _ hi => headerBin_get8 (by unfold l2ChecksumAlg at hi; omega)
    rw [HeaderCopy.checksumAlg, hcopy, container_slice (by decide), hsame]
    decide +kernel
  have hsum : mc.sha .sha1 (checksummed ((container mc recorded json).window 0 l2BinLen)
      (padded json)) = slice ((container mc recorded json).window 0 l2BinLen) l2Csum 20 := by
    rw [container_checksummed]
    funext ⟨i, hi⟩
    have hi' : i < 20 := hi
    have hin : l2Csum + i < l2BinLen := by
      rw [l2BinLen_eq]
      unfold l2Csum
      omega
    simp [slice, get8, Medium.window, container, hin, hi, hi']
  refine ⟨⟨rfl, rfl, hmalloc _ _, hmalloc _ _⟩, hmagic, hversion, ?_, ?_, Medium.length_copyAt,
    .sha1, halg, ?_⟩
  · rw [Medium.size_copyAt, container_sizeAt, l2BinLen_eq]
    decide
  · rw [Medium.size_copyAt, container_sizeAt]
    decide
  · rw [container_json]
    exact hsum

/-- There is no secondary behind it. -/
theorem container_no_secondary :
    ¬ Good mc (container mc recorded json) ((container mc recorded json).sizeAt 0)
      l2MagicSecondary := by
  rw [container_sizeAt]
  intro hsecondary
  have hfirst := congrFun hsecondary.sound.magic 0
  have hlen : 0 < l2BinLen := by decide +kernel
  have hout : ¬ (l2Csum ≤ 8192 ∧ 8192 < l2Csum + 20) := by decide
  have hzero : slice ((container mc recorded json).window 8192 l2BinLen) 0 6 0 = 0 := by
    simp [slice, get8, Medium.window, container, hlen, hout]
  exact absurd (hzero.symm.trans hfirst) (by decide)

theorem container_load (hmalloc : ∀ base n, mc.malloc base n = true) :
    luks2Load mc (container mc recorded json)
      = some ((container mc recorded json).headerAt 0) :=
  luks2Load_of_no_secondary (container_good hmalloc) container_no_secondary

theorem container_uuid :
    cString (toList ((container mc recorded json).headerAt 0).uuid) = [] := by
  have huuid : ((container mc recorded json).headerAt 0).uuid
      = slice ((container mc recorded json).window 0 l2BinLen) l2Uuid luksUuidLen := rfl
  have hsame : slice (headerBin recorded) l2Uuid luksUuidLen
      = slice (headerBin 0) l2Uuid luksUuidLen :=
    slice_congr fun i _ hi => headerBin_get8 (by unfold l2Uuid luksUuidLen at hi; omega)
  rw [huuid, container_slice (by decide), hsame]
  decide +kernel

/-- A document in its area is the document and zeros. -/
theorem toList_getD {n : ℕ} {l : List UInt8} (h : l.length ≤ n) :
    toList (fun i : Fin n => l.getD i 0) = l ++ List.replicate (n - l.length) 0 := by
  refine List.ext_getElem ?_ fun i hi hi' => ?_
  · simp only [toList, List.length_ofFn, List.length_append, List.length_replicate]
    omega
  · simp only [toList, List.getElem_ofFn]
    rcases Nat.lt_or_ge i l.length with hlt | hge
    · rw [List.getElem_append_left hlt, List.getD_eq_getElem _ _ hlt]
    · rw [List.getElem_append_right hge, List.getD_eq_default _ _ hge, List.getElem_replicate]

/-- A document without a NUL is read back as it is. -/
theorem container_document (hlen : json.length < 4096) (hnul : ∀ c ∈ json, c ≠ 0) :
    ((container mc recorded json).headerAt 0).json = json := by
  have hjson : ((container mc recorded json).headerAt 0).json
      = cString ((container mc recorded json).copyAt 0).json := rfl
  obtain ⟨r, hr⟩ : ∃ r, 4096 - json.length = r + 1 := ⟨4096 - json.length - 1, by omega⟩
  rw [hjson, container_json, padded, toList_getD hlen.le, hr, List.replicate_succ, cString,
    List.takeWhile_append_of_pos fun c hc => by simpa using hnul c hc]
  simp

end container

/-- **The recorded offset is not checked**: whatever the platform, a primary that records another
    place than its own is read and used. -/
theorem recordedOffset_unchecked : ¬ ∃ mc : Machine, (∀ base n, mc.malloc base n = true) ∧
    ∀ m, Good mc m 0 luksMagic → luks2Load mc m = some (m.headerAt 0) →
      (m.copyAt 0).recordedOffset = 0 := by
  rintro ⟨mc, hmalloc, hall⟩
  have hzero := hall (container mc 1 []) (container_good hmalloc) (container_load hmalloc)
  have hcopy : ((container mc 1 []).copyAt 0).bin = (container mc 1 []).window 0 l2BinLen := rfl
  have hone : getBE 8 (headerBin 1) 256 = 1 := by decide +kernel
  rw [HeaderCopy.recordedOffset, hcopy, container_getBE (by decide), hone] at hzero
  exact one_ne_zero hzero

end Luks
