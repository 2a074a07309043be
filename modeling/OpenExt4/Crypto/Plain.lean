import OpenExt4.Crypto.Device

set_option autoImplicit false

/-! # An unlocked device is a plain byte array

The payload of an unlocked container read through its cipher is an array of bytes. A read returns
the bytes of the array, a write changes the bytes it names and no others, and nothing but
ciphertext is written to the medium. -/

namespace Luks

open Bytes ByteDevice SectorCipher

variable {aes : Aes} {d : LuksDevice} {f : DeviceCalls} {dev : ℕ → UInt8}

/-! ## The array behind the ciphertext -/

/-- The cipher of the payload's sectors. -/
def LuksDevice.cipher (d : LuksDevice) (aes : Aes) : SectorCipher UInt8 d.sectorSize :=
  xtsSectors aes d.key d.sectorSize d.sector_ok

/-- The plaintext of the payload: what the medium's bytes decrypt to. -/
def LuksDevice.plain (d : LuksDevice) (aes : Aes) (dev : ℕ → UInt8) : ℕ → UInt8 :=
  (d.cipher aes).view d.payloadOffset dev

/-- The cipher in one direction. -/
def LuksDevice.crypt (d : LuksDevice) (aes : Aes) (encrypt : Bool) :
    ℕ → (ℕ → UInt8) → ℕ → UInt8 :=
  if encrypt then (d.cipher aes).enc else (d.cipher aes).dec

theorem LuksDevice.sectorSize_pos (d : LuksDevice) : 0 < d.sectorSize :=
  Nat.pos_of_ne_zero d.sector_ok.1

theorem LuksDevice.crypt_apply (encrypt : Bool) (i : ℕ) (p : ℕ → UInt8) :
    d.crypt aes encrypt i p
      = xts (if encrypt then aes d.key.dataKey else (aes d.key.dataKey).symm)
          (aes d.key.tweakKey (aesXtsPlain64Tweak (i * d.ivScale))) p := by
  rw [d.iv_ok]
  cases encrypt <;> rfl

/-! ## One sector, and a run of them -/

theorem overlay_apply (buf : ℕ → UInt8) (off len : ℕ) (out : ℕ → UInt8) (x : ℕ) :
    overlay buf off len out x = if off ≤ x ∧ x < off + len then out (x - off) else buf x := by
  simp [overlay, put]

theorem cryptAt_ok {ecb : ℕ → Bool → Bool} {encrypt : Bool} {sector i : ℕ} {buf out : ℕ → UInt8}
    (h : cryptAt aes d.key ecb encrypt sector d.ivScale (i * d.sectorSize) d.sectorSize buf
      = .ok out) (x : ℕ) :
    out x = if i * d.sectorSize ≤ x ∧ x < i * d.sectorSize + d.sectorSize
      then d.crypt aes encrypt sector (SectorCipher.sector d.sectorSize buf i)
        (x - i * d.sectorSize)
      else buf x := by
  unfold cryptAt at h
  dsimp only at h
  split at h
  · cases h
  · next chunk hchunk =>
      cases h
      rw [overlay_apply]
      split
      · next hin =>
          rw [aesXtsCryptSector_ok hchunk _ (by omega), aesXtsPlain64Tweak_mod, d.crypt_apply]
          rfl
      · rfl

theorem cryptAt_clean {ecb : ℕ → Bool → Bool} {encrypt : Bool} {sector off : ℕ}
    {buf : ℕ → UInt8} (hecb : ∀ phase, ecb sector phase = false) :
    ∃ out, cryptAt aes d.key ecb encrypt sector d.ivScale off d.sectorSize buf = .ok out := by
  obtain ⟨hne, hmul⟩ := d.sector_ok
  have hsector : ∃ out, aesXtsCryptSector aes d.key (ecb sector) encrypt
      (aesXtsPlain64Tweak (sector * d.ivScale % 2 ^ 64)) (fun x => buf (off + x)) d.sectorSize
        = .ok out :=
    aesXtsCryptSector_clean hne (by omega) hecb
  obtain ⟨out, hout⟩ := hsector
  rw [cryptAt, hout]
  exact ⟨_, rfl⟩

/-- A loop over `count` whole sectors puts each of them through the cipher. -/
theorem sweep_crypt {ecb : ℕ → Bool → Bool} {encrypt : Bool} {first count : ℕ}
    {turn : ℕ → (ℕ → UInt8) → Except Errno (ℕ → UInt8)}
    (hturn : ∀ i < count, ∀ buf, turn (i * d.sectorSize) buf
      = cryptAt aes d.key ecb encrypt (first + i) d.ivScale (i * d.sectorSize) d.sectorSize buf)
    {buf out : ℕ → UInt8} (h : sweep turn d.sectorSize count 0 buf = .ok out)
    {x : ℕ} (hx : x < count * d.sectorSize) :
    out x = each d.sectorSize first (d.crypt aes encrypt) buf x := by
  refine sweep_each d.sectorSize_pos (fun i hi window window' hone x => ?_) h hx
  rw [hturn i hi] at hone
  exact cryptAt_ok hone x

theorem sweep_crypt_clean {ecb : ℕ → Bool → Bool} {encrypt : Bool} {first count : ℕ}
    {turn : ℕ → (ℕ → UInt8) → Except Errno (ℕ → UInt8)}
    (hturn : ∀ i < count, ∀ buf, turn (i * d.sectorSize) buf
      = cryptAt aes d.key ecb encrypt (first + i) d.ivScale (i * d.sectorSize) d.sectorSize buf)
    (hecb : ∀ sector phase, ecb sector phase = false) (buf : ℕ → UInt8) :
    ∃ out, sweep turn d.sectorSize count 0 buf = .ok out := by
  have hclean : ∀ i < count, ∀ buf, ∃ out, turn (i * d.sectorSize) buf = .ok out := by
    intro i hi buf
    rw [hturn i hi]
    exact cryptAt_clean (hecb _)
  have hall := sweep_clean hclean (i := 0) (Nat.zero_add count).le buf
  rwa [Nat.zero_mul] at hall

/-- The body of `decrypt_run` on a run of whole sectors. -/
theorem decryptRun_turn {first count : ℕ} {ecb : ℕ → Bool → Bool} :
    ∀ i < count, ∀ buf : ℕ → UInt8,
      (fun off (buf : ℕ → UInt8) =>
        let chunk := if count * d.sectorSize - off < d.sectorSize
          then count * d.sectorSize - off else d.sectorSize
        cryptAt aes d.key ecb false (first + off / d.sectorSize) d.ivScale off chunk buf)
        (i * d.sectorSize) buf
      = cryptAt aes d.key ecb false (first + i) d.ivScale (i * d.sectorSize) d.sectorSize buf := by
  intro i hi buf
  have hfull : ¬ count * d.sectorSize - i * d.sectorSize < d.sectorSize := by
    have hle : (i + 1) * d.sectorSize ≤ count * d.sectorSize := Nat.mul_le_mul_right _ hi
    rw [Nat.succ_mul] at hle
    omega
  simp only [if_neg hfull, Nat.mul_div_cancel _ d.sectorSize_pos]

theorem decryptRun_ok {ecb : ℕ → Bool → Bool} {first count : ℕ} {buf out : ℕ → UInt8}
    (h : decryptRun aes d.key ecb buf (count * d.sectorSize) d.sectorSize first d.ivScale = .ok out)
    {x : ℕ} (hx : x < count * d.sectorSize) :
    out x = each d.sectorSize first (d.cipher aes).dec buf x := by
  rw [decryptRun, turns_mul d.sectorSize_pos] at h
  exact sweep_crypt decryptRun_turn h hx

theorem decryptRun_clean {ecb : ℕ → Bool → Bool} {first count : ℕ} (buf : ℕ → UInt8)
    (hecb : ∀ sector phase, ecb sector phase = false) :
    ∃ out, decryptRun aes d.key ecb buf (count * d.sectorSize) d.sectorSize first d.ivScale
      = .ok out := by
  rw [decryptRun, turns_mul d.sectorSize_pos]
  exact sweep_crypt_clean decryptRun_turn hecb buf

/-! ## The window of a request -/

/-- A request inside the payload of a container of `size` bytes. -/
structure Inside (d : LuksDevice) (size offset count : ℕ) : Prop where
  size_lt : size < 2 ^ 64
  fits : offset + count ≤ luksPayloadSize d size

/-- What the window of such a request is: `n` whole sectors around it, inside the container. -/
structure Covers (d : LuksDevice) (size offset count : ℕ) (w : Window) (n : ℕ) : Prop where
  first : w.first = offset / d.sectorSize
  span : w.span = n * d.sectorSize
  place : w.first * d.sectorSize + w.shift = offset
  addr : w.addr = d.payloadOffset + w.first * d.sectorSize
  inner : w.shift + count ≤ w.span
  last : w.first + n = (offset + count - 1) / d.sectorSize + 1
  inside : w.addr + w.span ≤ size

/-- The payload ends with a whole sector, inside the container. -/
theorem luksPayloadSize_le {size : ℕ} (h : luksPayloadSize d size ≠ 0) :
    d.payloadOffset + luksPayloadSize d size ≤ size ∧
      luksPayloadSize d size % d.sectorSize = 0 := by
  unfold luksPayloadSize at h ⊢
  split at h
  · exact absurd rfl h
  · next hlarge =>
      rw [if_neg hlarge]
      dsimp only
      have hmod := Nat.mod_le (size - d.payloadOffset) d.sectorSize
      have hsplit := Nat.div_add_mod (size - d.payloadOffset) d.sectorSize
      have hmul : size - d.payloadOffset - (size - d.payloadOffset) % d.sectorSize
          = d.sectorSize * ((size - d.payloadOffset) / d.sectorSize) := by omega
      refine ⟨by omega, ?_⟩
      rw [hmul, Nat.mul_mod_right]

/-- **The window of a request inside the payload**, with no 64-bit number wrapping. -/
theorem Inside.covers {size offset count : ℕ} (h : Inside d size offset count)
    (hcount : count ≠ 0) : ∃ n, Covers d size offset count (d.window offset count) n := by
  have hfits := h.fits
  have hsize := h.size_lt
  have hpayload : luksPayloadSize d size ≠ 0 := by omega
  obtain ⟨hend, hwhole⟩ := luksPayloadSize_le hpayload
  have hpos := d.sectorSize_pos
  obtain ⟨first, hfirst⟩ : ∃ first, first = offset / d.sectorSize := ⟨_, rfl⟩
  obtain ⟨last, hlast⟩ : ∃ last, last = (offset + count - 1) / d.sectorSize := ⟨_, rfl⟩
  have hle : first ≤ last := by
    rw [hfirst, hlast]
    exact Nat.div_le_div_right (by omega)
  have hstart : first * d.sectorSize ≤ offset := hfirst ▸ Nat.div_mul_le_self _ _
  have hcovers : offset + count - 1 < (last + 1) * d.sectorSize := by
    rw [hlast, ← Nat.div_lt_iff_lt_mul hpos]
    exact Nat.lt_succ_self _
  have hpayload : (last + 1) * d.sectorSize ≤ luksPayloadSize d size := by
    have hquot := Nat.div_mul_cancel (Nat.dvd_of_mod_eq_zero hwhole)
    have hlt : last < luksPayloadSize d size / d.sectorSize := by
      rw [hlast, Nat.div_lt_iff_lt_mul hpos, hquot]
      omega
    rw [← hquot]
    exact Nat.mul_le_mul_right _ hlt
  have hlast_le : last + 1 ≤ (last + 1) * d.sectorSize := Nat.le_mul_of_pos_right _ hpos
  have hspan : (last - first + 1) * d.sectorSize + first * d.sectorSize
      = (last + 1) * d.sectorSize := by
    rw [← Nat.add_mul]
    congr 1
    omega
  have hwrap : (offset + count - 1) % 2 ^ 64 = offset + count - 1 := Nat.mod_eq_of_lt (by omega)
  have hturns : (last + 2 ^ 64 - first + 1) % 2 ^ 64 = last - first + 1 := by omega
  have hsame : (last - first + 1) * d.sectorSize % 2 ^ 64 = (last - first + 1) * d.sectorSize :=
    Nat.mod_eq_of_lt (by omega)
  have haddr : (d.payloadOffset + first * d.sectorSize) % 2 ^ 64
      = d.payloadOffset + first * d.sectorSize := Nat.mod_eq_of_lt (by omega)
  have hwindow : d.window offset count
      = ⟨first, (last - first + 1) * d.sectorSize, offset - first * d.sectorSize,
          d.payloadOffset + first * d.sectorSize⟩ := by
    rw [LuksDevice.window, hwrap, ← hfirst, ← hlast, hturns, hsame, haddr]
  rw [hwindow]
  refine ⟨last - first + 1, hfirst, rfl, ?_, rfl, ?_, ?_, ?_⟩
  · show first * d.sectorSize + (offset - first * d.sectorSize) = offset
    omega
  · show offset - first * d.sectorSize + count ≤ (last - first + 1) * d.sectorSize
    omega
  · show first + (last - first + 1) = (offset + count - 1) / d.sectorSize + 1
    omega
  · show d.payloadOffset + first * d.sectorSize + (last - first + 1) * d.sectorSize ≤ size
    omega

/-! ## Reading -/

variable {size offset count : ℕ} {w : Window} {n : ℕ}

/-- The sectors of a window, decrypted, are the plaintext there. -/
theorem readWindow_ok (hw : Covers d size offset count w n) {window : ℕ → UInt8}
    (h : readWindow aes d f dev w = .ok window) {x : ℕ} (hx : x < w.span) :
    window x = d.plain aes dev (w.first * d.sectorSize + x) := by
  unfold readWindow at h
  split at h
  · cases h
  · rw [hw.span] at h hx
    rw [decryptRun_ok h hx]
    refine each_dec_eq_view _ hx fun y _ => ?_
    rw [hw.addr]

/-- No call that a request makes fails. -/
structure DeviceCalls.Clean (f : DeviceCalls) : Prop where
  heap : f.heap ≠ none
  read : f.read = none
  ecb : ∀ encrypt sector phase, f.ecb encrypt sector phase = false
  write : f.write = .lands

theorem readWindow_clean (hw : Covers d size offset count w n) (hread : f.read = none)
    (hecb : ∀ sector phase, f.ecb false sector phase = false) :
    ∃ window, readWindow aes d f dev w = .ok window := by
  rw [readWindow, hread, hw.span]
  exact decryptRun_clean _ hecb

/-- **A read returns the plaintext.** -/
theorem luksDeviceRead_ok (h : Inside d size offset count) {buf : Buf count}
    (hread : luksDeviceRead aes d f dev offset count = .ok buf) (i : Fin count) :
    buf i = d.plain aes dev (offset + i) := by
  have hcount : count ≠ 0 := by have := i.isLt; omega
  obtain ⟨n, hw⟩ := h.covers hcount
  rw [luksDeviceRead, if_neg hcount] at hread
  dsimp only at hread
  split at hread
  · cases hread
  split at hread
  · cases hread
  · next window hwindow =>
      cases hread
      have hi := i.isLt
      have hinner := hw.inner
      dsimp only
      rw [readWindow_ok hw hwindow (by omega), ← Nat.add_assoc, hw.place]

/-- A read fails only when a call that it makes does. -/
theorem luksDeviceRead_clean (h : Inside d size offset count) (hclean : f.Clean) :
    ∃ buf, luksDeviceRead aes d f dev offset count = .ok buf := by
  by_cases hcount : count = 0
  · rw [luksDeviceRead, if_pos hcount]
    exact ⟨_, rfl⟩
  · obtain ⟨n, hw⟩ := h.covers hcount
    have hwhole : ∃ window, readWindow aes d f dev (d.window offset count) = .ok window :=
      readWindow_clean hw hclean.read (hclean.ecb false)
    obtain ⟨window, hwindow⟩ := hwhole
    obtain ⟨heap, hheap⟩ := Option.ne_none_iff_exists'.mp hclean.heap
    rw [luksDeviceRead, if_neg hcount, hheap]
    dsimp only
    rw [hwindow]
    exact ⟨_, rfl⟩

/-! ## Writing -/

/-- The plaintext of the payload with `count` bytes of `data` at `offset`. -/
def merged (plain : ℕ → UInt8) (offset count : ℕ) (data : ℕ → UInt8) : ℕ → UInt8 :=
  overlay plain offset count data

/-- The body of the loop that encrypts. -/
theorem encryptTurn (first : ℕ) {ecb : ℕ → Bool → Bool} {count : ℕ} :
    ∀ i < count, ∀ buf : ℕ → UInt8, (fun off (buf : ℕ → UInt8) =>
        cryptAt aes d.key ecb true (first + off / d.sectorSize) d.ivScale off d.sectorSize buf)
        (i * d.sectorSize) buf
      = cryptAt aes d.key ecb true (first + i) d.ivScale (i * d.sectorSize) d.sectorSize buf := by
  intro i _ buf
  simp only [Nat.mul_div_cancel _ d.sectorSize_pos]

/-- **What is handed to `write_fn`**: the ciphertext of the sectors that the request covers, each
    with the new bytes in it and its other bytes as they were. -/
theorem writeWindow_ok (hw : Covers d size offset count w n) {data heap window : ℕ → UInt8}
    (h : writeWindow aes d f dev w count data heap = .ok window) {x : ℕ} (hx : x < w.span) :
    window x = each d.sectorSize w.first (d.cipher aes).enc
      (fun y => merged (d.plain aes dev) offset count data (w.first * d.sectorSize + y)) x := by
  unfold writeWindow at h
  split at h
  · cases h
  next old hold =>
    rw [hw.span, turns_mul d.sectorSize_pos] at h
    have hx' : x < n * d.sectorSize := hw.span ▸ hx
    rw [sweep_crypt (encryptTurn w.first) h hx']
    refine each_congr d.sectorSize_pos (fun i => (d.cipher aes).enc_local i) (fun y hy => ?_) x hx'
    have hplace := hw.place
    rw [merged, overlay_apply, overlay_apply]
    by_cases hin : w.shift ≤ y ∧ y < w.shift + count
    · have hsame : w.first * d.sectorSize + y - offset = y - w.shift := by omega
      rw [if_pos hin, if_pos (by omega), hsame]
    · have hpart : w.shift ≠ 0 ∨ count ≠ w.span := by
        rw [hw.span]
        omega
      rw [if_pos hpart] at hold
      rw [if_neg hin, if_neg (by omega), readWindow_ok hw hold (by rw [hw.span]; exact hy)]

/-- **A command to the medium**: the window of the request, and ciphertext in it. -/
theorem writeCommand_some (h : Inside d size offset count) {data window : ℕ → UInt8}
    (hcommand : writeCommand aes d f dev offset count data = .ok (some (w, window))) :
    ∃ n, Covers d size offset count w n ∧ ∀ x < w.span, window x =
      each d.sectorSize w.first (d.cipher aes).enc
        (fun y => merged (d.plain aes dev) offset count data (w.first * d.sectorSize + y)) x := by
  unfold writeCommand at hcommand
  by_cases hcount : count = 0
  · split_ifs at hcommand
    cases hcommand
  split_ifs at hcommand
  dsimp only at hcommand
  split at hcommand
  · cases hcommand
  split at hcommand
  · cases hcommand
  · next hwindow =>
      cases hcommand
      obtain ⟨n, hw⟩ := h.covers hcount
      exact ⟨n, hw, fun x hx => writeWindow_ok hw hwindow hx⟩

theorem writeCommand_none {data : ℕ → UInt8}
    (hcommand : writeCommand aes d f dev offset count data = .ok none) : count = 0 := by
  unfold writeCommand at hcommand
  split_ifs at hcommand with hwritable hcount
  · exact hcount
  · dsimp only at hcommand
    split at hcommand
    · cases hcommand
    split at hcommand <;> cases hcommand

/-- Without a failing call a writable device gives its command. -/
theorem writeCommand_clean (h : Inside d size offset count) (hwritable : d.writable = true)
    (hclean : f.Clean) (data : ℕ → UInt8) :
    ∃ command, writeCommand aes d f dev offset count data = .ok command := by
  by_cases hcount : count = 0
  · simp [writeCommand, hwritable, hcount]
  obtain ⟨n, hw⟩ := h.covers hcount
  obtain ⟨heap, hheap⟩ := Option.ne_none_iff_exists'.mp hclean.heap
  have hold : ∃ old, (if (d.window offset count).shift ≠ 0 ∨ count ≠ (d.window offset count).span
      then readWindow aes d f dev (d.window offset count) else .ok heap) = .ok old := by
    split
    · exact readWindow_clean hw hclean.read (hclean.ecb false)
    · exact ⟨heap, rfl⟩
  obtain ⟨old, hold⟩ := hold
  have hwindow : ∃ window, writeWindow aes d f dev (d.window offset count) count data heap
      = .ok window := by
    rw [writeWindow, hold, hw.span, turns_mul d.sectorSize_pos]
    exact sweep_crypt_clean (encryptTurn _) (hclean.ecb true) _
  obtain ⟨window, hwindow⟩ := hwindow
  simp [writeCommand, hwritable, hcount, hheap, hwindow]

/-! ## What a write does -/

/-- The sector of byte `x` is one of those that a request covers. -/
def Covered (d : LuksDevice) (offset count x : ℕ) : Prop :=
  offset / d.sectorSize ≤ x / d.sectorSize ∧
    x / d.sectorSize ≤ (offset + count - 1) / d.sectorSize

instance (d : LuksDevice) (offset count x : ℕ) : Decidable (Covered d offset count x) :=
  inferInstanceAs (Decidable (_ ∧ _))

/-- The bytes of the sector of `x` all land, or none of them does. -/
def SectorLands (d : LuksDevice) (landed : ℕ → Bool) (b : Bool) (x : ℕ) : Prop :=
  ∀ k < d.sectorSize, landed (d.payloadOffset + (x / d.sectorSize * d.sectorSize + k)) = b

instance (d : LuksDevice) (landed : ℕ → Bool) (b : Bool) (x : ℕ) :
    Decidable (SectorLands d landed b x) :=
  inferInstanceAs (Decidable (∀ k < d.sectorSize, _ = b))

/-- Inside the request is inside its sectors. -/
theorem covered_of_mem {x : ℕ} (hlo : offset ≤ x) (hhi : x < offset + count) :
    Covered d offset count x :=
  ⟨Nat.div_le_div_right hlo, Nat.div_le_div_right (by omega)⟩

theorem merged_of_not_covered {plain data : ℕ → UInt8} {x : ℕ}
    (h : ¬ Covered d offset count x) : merged plain offset count data x = plain x := by
  rw [merged, overlay_apply, if_neg fun hin => h (covered_of_mem hin.1 hin.2)]

section command

variable {data window : ℕ → UInt8}

/-- The medium after the command: whole sectors of ciphertext, as far as they land. -/
theorem luksDeviceWrite_snd (h : Inside d size offset count) {w : Window}
    (hcommand : writeCommand aes d f dev offset count data = .ok (some (w, window))) :
    ∃ n, Covers d size offset count w n ∧
      (∀ x < n * d.sectorSize, window x = each d.sectorSize w.first (d.cipher aes).enc
        (fun y => merged (d.plain aes dev) offset count data (w.first * d.sectorSize + y)) x) ∧
      (luksDeviceWrite aes d f dev offset count data).2
        = written d.sectorSize d.payloadOffset w.first n dev window f.write.landed := by
  obtain ⟨n, hw, hwindow⟩ := writeCommand_some h hcommand
  rw [hw.span] at hwindow
  refine ⟨n, hw, hwindow, ?_⟩
  rw [luksDeviceWrite, hcommand]
  dsimp only
  rw [writeAt_snd, hw.addr, hw.span]

/-- The sector of a byte that no request covers keeps its plaintext. -/
theorem plain_write_outside (h : Inside d size offset count) {w : Window}
    (hcommand : writeCommand aes d f dev offset count data = .ok (some (w, window))) {x : ℕ}
    (hx : ¬ Covered d offset count x) :
    d.plain aes (luksDeviceWrite aes d f dev offset count data).2 x = d.plain aes dev x := by
  obtain ⟨n, hw, -, hsnd⟩ := luksDeviceWrite_snd h hcommand
  have hsplit : x = x / d.sectorSize * d.sectorSize + x % d.sectorSize :=
    (Nat.div_add_mod' x d.sectorSize).symm
  have hlast := hw.last
  have hfirst := hw.first
  rw [hsnd, hsplit]
  refine view_written_outside _ (Nat.mod_lt _ d.sectorSize_pos) ?_
  rw [Covered] at hx
  omega

theorem plain_write_missed (h : Inside d size offset count) {w : Window}
    (hcommand : writeCommand aes d f dev offset count data = .ok (some (w, window))) {x : ℕ}
    (hmissed : SectorLands d f.write.landed false x) :
    d.plain aes (luksDeviceWrite aes d f dev offset count data).2 x = d.plain aes dev x := by
  obtain ⟨n, -, -, hsnd⟩ := luksDeviceWrite_snd h hcommand
  have hsplit : x = x / d.sectorSize * d.sectorSize + x % d.sectorSize :=
    (Nat.div_add_mod' x d.sectorSize).symm
  rw [hsnd, hsplit]
  exact view_written_missed _ (Nat.mod_lt _ d.sectorSize_pos) hmissed

/-- A sector that lands whole holds the new bytes, and its other bytes as they were. -/
theorem plain_write_landed (h : Inside d size offset count) {w : Window}
    (hcommand : writeCommand aes d f dev offset count data = .ok (some (w, window))) {x : ℕ}
    (hx : Covered d offset count x) (hlands : SectorLands d f.write.landed true x) :
    d.plain aes (luksDeviceWrite aes d f dev offset count data).2 x
      = merged (d.plain aes dev) offset count data x := by
  obtain ⟨n, hw, hwindow, hsnd⟩ := luksDeviceWrite_snd h hcommand
  obtain ⟨i, hi⟩ : ∃ i, x / d.sectorSize = w.first + i := by
    obtain ⟨i, hi⟩ := Nat.exists_eq_add_of_le hx.1
    exact ⟨i, by rw [hw.first]; exact hi⟩
  have hcount : i < n := by
    have hlast := hw.last
    have hle := hx.2
    omega
  have hsplit : x = (w.first + i) * d.sectorSize + x % d.sectorSize := by
    rw [← hi]
    exact (Nat.div_add_mod' x d.sectorSize).symm
  have hlands' : ∀ k < d.sectorSize,
      f.write.landed (d.payloadOffset + ((w.first + i) * d.sectorSize + k)) = true := by
    rw [← hi]
    exact hlands
  have hview : (d.cipher aes).view d.payloadOffset
      (written d.sectorSize d.payloadOffset w.first n dev window f.write.landed)
        ((w.first + i) * d.sectorSize + x % d.sectorSize)
      = merged (d.plain aes dev) offset count data
          (w.first * d.sectorSize + (i * d.sectorSize + x % d.sectorSize)) :=
    view_written_landed _ (Nat.mod_lt x d.sectorSize_pos) hcount hlands' hwindow
  rw [← Nat.add_assoc, ← Nat.add_mul, ← hsplit] at hview
  rw [hsnd]
  exact hview

end command

end Luks
