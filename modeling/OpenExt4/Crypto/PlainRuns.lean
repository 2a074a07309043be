import OpenExt4.Crypto.Plain
import OpenExt4.Lib.Transitions

set_option autoImplicit false

/-! # Runs of requests on an unlocked device

Any sequence of reads and writes inside the payload, with any of their calls failing. What is known
of a byte is what was last written to it, or what it decrypted to at the start; a command of the
medium that fails leaves the sectors that landed in part unknown, and no others. -/

namespace Luks

open Bytes ByteDevice SectorCipher Transitions

variable {aes : Aes} {d : LuksDevice} {f : DeviceCalls} {dev : ℕ → UInt8} {size offset count : ℕ}

/-! ## One request -/

/-- What a write owes, whatever fails: bytes stored when it succeeds, no sector changed but those it
    covers, and nothing on the medium but ciphertext. -/
structure WriteSpec (aes : Aes) (d : LuksDevice) (f : DeviceCalls) (dev : ℕ → UInt8)
    (offset count : ℕ) (data : ℕ → UInt8) (r : Option Errno × (ℕ → UInt8)) : Prop where
  stored : r.1 = none → ∀ x, d.plain aes r.2 x = merged (d.plain aes dev) offset count data x
  outside : ∀ x, ¬ Covered d offset count x →
    r.2 (d.payloadOffset + x) = dev (d.payloadOffset + x)
  header : ∀ y < d.payloadOffset, r.2 y = dev y
  ciphertext : ∀ x, r.2 (d.payloadOffset + x) ≠ dev (d.payloadOffset + x) →
    r.2 (d.payloadOffset + x) = each d.sectorSize 0 (d.cipher aes).enc
      (merged (d.plain aes dev) offset count data) x
  unasked : ∀ e, writeCommand aes d f dev offset count data = .error e → r = (some e, dev)
  clean : d.writable = true → f.Clean → r.1 = none

/-- What a read owes. -/
structure ReadSpec (aes : Aes) (d : LuksDevice) (f : DeviceCalls) (dev : ℕ → UInt8)
    (offset count : ℕ) (r : Except Errno (Buf count)) : Prop where
  plain : ∀ buf, r = .ok buf → ∀ i : Fin count, buf i = d.plain aes dev (offset + i)
  clean : f.Clean → ∃ buf, r = .ok buf

theorem luksDeviceRead_spec (h : Inside d size offset count) :
    ReadSpec aes d f dev offset count (luksDeviceRead aes d f dev offset count) where
  plain _ hread i := luksDeviceRead_ok h hread i
  clean hclean := luksDeviceRead_clean h hclean

theorem luksDeviceWrite_of_error {e : Errno} {data : ℕ → UInt8}
    (h : writeCommand aes d f dev offset count data = .error e) :
    luksDeviceWrite aes d f dev offset count data = (some e, dev) := by
  rw [luksDeviceWrite, h]

theorem luksDeviceWrite_of_none {data : ℕ → UInt8}
    (h : writeCommand aes d f dev offset count data = .ok none) :
    luksDeviceWrite aes d f dev offset count data = (none, dev) := by
  rw [luksDeviceWrite, h]

/-- A request for no bytes merges nothing. -/
theorem merged_zero (plain data : ℕ → UInt8) (x : ℕ) : merged plain offset 0 data x = plain x := by
  rw [merged, overlay_apply, if_neg (by omega)]

/-- A command that succeeds has landed. -/
theorem landed_of_none {w : Window} {data window : ℕ → UInt8}
    (hcommand : writeCommand aes d f dev offset count data = .ok (some (w, window)))
    (hok : (luksDeviceWrite aes d f dev offset count data).1 = none) :
    f.write.landed = fun _ => true := by
  rw [luksDeviceWrite, hcommand] at hok
  cases hwrite : f.write with
  | lands => rfl
  | fails e landed => rw [hwrite] at hok; cases hok

/-- The medium after a command, byte by byte. -/
theorem write_byte (h : Inside d size offset count) {w : Window} {data window : ℕ → UInt8}
    (hcommand : writeCommand aes d f dev offset count data = .ok (some (w, window))) (x : ℕ) :
    (luksDeviceWrite aes d f dev offset count data).2 (d.payloadOffset + x)
      = if Covered d offset count x ∧ f.write.landed (d.payloadOffset + x) = true
        then each d.sectorSize 0 (d.cipher aes).enc (merged (d.plain aes dev) offset count data) x
        else dev (d.payloadOffset + x) := by
  obtain ⟨n, hw, hwindow, hsnd⟩ := luksDeviceWrite_snd h hcommand
  have hpos := d.sectorSize_pos
  have hcovered : Covered d offset count x ↔
      w.first * d.sectorSize ≤ x ∧ x < w.first * d.sectorSize + n * d.sectorSize := by
    rw [Covered, ← hw.first, Nat.le_div_iff_mul_le hpos, ← Nat.add_mul, hw.last,
      ← Nat.div_lt_iff_lt_mul hpos, Nat.lt_succ_iff]
  rw [hsnd, written, put]
  by_cases hin : Covered d offset count x ∧ f.write.landed (d.payloadOffset + x) = true
  · obtain ⟨hlo, hhi⟩ := hcovered.mp hin.1
    obtain ⟨y, rfl⟩ := Nat.exists_eq_add_of_le hlo
    have hy : d.payloadOffset + (w.first * d.sectorSize + y)
        - (d.payloadOffset + w.first * d.sectorSize) = y := by omega
    rw [if_pos hin, if_pos ⟨by omega, by omega, hin.2⟩, hy, hwindow y (by omega),
      each_window hpos]
  · have hout : ¬ (d.payloadOffset + w.first * d.sectorSize ≤ d.payloadOffset + x ∧
        d.payloadOffset + x < d.payloadOffset + w.first * d.sectorSize + n * d.sectorSize ∧
        f.write.landed (d.payloadOffset + x) = true) := fun hall =>
      hin ⟨hcovered.mpr ⟨by omega, by omega⟩, hall.2.2⟩
    rw [if_neg hin, if_neg hout]

theorem luksDeviceWrite_spec (h : Inside d size offset count) (data : ℕ → UInt8) :
    WriteSpec aes d f dev offset count data (luksDeviceWrite aes d f dev offset count data) := by
  cases hcommand : writeCommand aes d f dev offset count data with
  | error e =>
      rw [luksDeviceWrite_of_error hcommand]
      refine ⟨by simp, fun _ _ => rfl, fun _ _ => rfl, fun _ hne => absurd rfl hne, ?_, ?_⟩
      · intro e' he
        rw [hcommand] at he
        cases he
        rfl
      · intro hwritable hclean
        obtain ⟨command, hsome⟩ := writeCommand_clean h hwritable hclean data
        rw [hcommand] at hsome
        cases hsome
  | ok command =>
      cases command with
      | none =>
          obtain rfl := writeCommand_none hcommand
          rw [luksDeviceWrite_of_none hcommand]
          refine ⟨fun _ x => (merged_zero _ _ _).symm, fun _ _ => rfl, fun _ _ => rfl,
            fun _ hne => absurd rfl hne, ?_, fun _ _ => rfl⟩
          intro e he
          rw [hcommand] at he
          cases he
      | some command =>
          obtain ⟨w, window⟩ := command
          have hbyte := write_byte h hcommand
          refine ⟨fun hok x => ?_, fun x hx => ?_, ?_, fun x hne => ?_, ?_, ?_⟩
          · have hlanded := landed_of_none hcommand hok
            by_cases hx : Covered d offset count x
            · exact plain_write_landed h hcommand hx fun k _ => by rw [hlanded]
            · rw [plain_write_outside h hcommand hx, merged_of_not_covered hx]
          · rw [hbyte, if_neg fun hin => hx hin.1]
          · intro y hy
            obtain ⟨n, hw, -, hsnd⟩ := luksDeviceWrite_snd h hcommand
            rw [hsnd]
            exact put_outside (.inl (by omega))
          · rw [hbyte] at hne ⊢
            split
            · rfl
            · next hout => exact absurd (if_neg hout) hne
          · intro e he
            rw [hcommand] at he
            cases he
          · intro _ hclean
            rw [luksDeviceWrite, hcommand]
            dsimp only
            rw [hclean.write]
            rfl

/-! ## Runs -/

inductive Request where
  | read (offset count : ℕ)
  | write (offset count : ℕ) (data : ℕ → UInt8)

/-- The medium, and what is known of the payload's bytes. -/
structure State where
  dev : ℕ → UInt8
  known : ℕ → Option UInt8

/-- At the start every byte is what the medium decrypts to. -/
def start (aes : Aes) (d : LuksDevice) (dev : ℕ → UInt8) : State :=
  ⟨dev, fun x => some (d.plain aes dev x)⟩

/-- What is known after a write: a sector that the medium took whole has its new bytes, one that it
    did not touch is as before, and one that it took in part is lost. -/
def learn (d : LuksDevice) (landed : ℕ → Bool) (offset count : ℕ) (data : ℕ → UInt8)
    (known : ℕ → Option UInt8) (x : ℕ) : Option UInt8 :=
  if ¬ Covered d offset count x ∨ SectorLands d landed true x then
    if offset ≤ x ∧ x < offset + count then some (data (x - offset)) else known x
  else if SectorLands d landed false x then known x
  else none

/-- One request, its calls faring as `e.2` says. -/
def step (aes : Aes) (d : LuksDevice) (s : State) (e : Request × DeviceCalls) : Option State :=
  match e.1 with
  | .read _ _ => some s
  | .write offset count data =>
    some {
      dev := (luksDeviceWrite aes d e.2 s.dev offset count data).2
      known :=
        match writeCommand aes d e.2 s.dev offset count data with
        | .ok (some _) => learn d e.2.write.landed offset count data s.known
        | _ => s.known }

/-- A request inside the payload. -/
def Asked (d : LuksDevice) (size : ℕ) (_ : State) (e : Request × DeviceCalls) : Prop :=
  match e.1 with
  | .read offset count => Inside d size offset count
  | .write offset count _ => Inside d size offset count

/-- What is known is so. -/
def Faithful (aes : Aes) (d : LuksDevice) (s : State) : Prop :=
  ∀ x v, s.known x = some v → d.plain aes s.dev x = v

theorem start_faithful (dev : ℕ → UInt8) : Faithful aes d (start aes d dev) := by
  intro x v hknown
  exact Option.some.inj hknown

theorem learn_faithful (h : Inside d size offset count) {w : Window} {data window : ℕ → UInt8}
    (hcommand : writeCommand aes d f dev offset count data = .ok (some (w, window)))
    {known : ℕ → Option UInt8} (hs : Faithful aes d ⟨dev, known⟩) :
    Faithful aes d ⟨(luksDeviceWrite aes d f dev offset count data).2,
      learn d f.write.landed offset count data known⟩ := by
  intro x v hknown
  dsimp only [learn] at hknown ⊢
  split at hknown
  · next hwhole =>
      have hplain : d.plain aes (luksDeviceWrite aes d f dev offset count data).2 x
          = merged (d.plain aes dev) offset count data x := by
        by_cases hx : Covered d offset count x
        · exact plain_write_landed h hcommand hx (hwhole.resolve_left (not_not.mpr hx))
        · rw [plain_write_outside h hcommand hx, merged_of_not_covered hx]
      rw [hplain, merged, overlay_apply]
      split at hknown
      · next hin => rw [if_pos hin]; exact Option.some.inj hknown
      · next hout => rw [if_neg hout]; exact hs x v hknown
  · split at hknown
    · next hmissed => rw [plain_write_missed h hcommand hmissed]; exact hs x v hknown
    · cases hknown

/-- **What is known stays true**, request after request. -/
theorem step_faithful {s t : State} {e : Request × DeviceCalls} (hasked : Asked d size s e)
    (hstep : step aes d s e = some t) (hs : Faithful aes d s) : Faithful aes d t := by
  obtain ⟨request, f⟩ := e
  cases request with
  | read offset count =>
      cases hstep
      exact hs
  | write offset count data =>
      cases hstep
      dsimp only
      cases hcommand : writeCommand aes d f s.dev offset count data with
      | error e =>
          rw [luksDeviceWrite_of_error hcommand]
          exact hs
      | ok command =>
          cases command with
          | none =>
              rw [luksDeviceWrite_of_none hcommand]
              exact hs
          | some command =>
              obtain ⟨w, window⟩ := command
              exact learn_faithful hasked hcommand hs

/-- **An unlocked device is a plain byte array.** In every state that requests inside the payload
    lead to, a read returns the plaintext of the bytes it names, which is what is known of them; a
    write meets its specification, whatever calls fail; and in both directions sector `i` is under
    the tweak `i * (sector size / 512)`. -/
theorem unlocked_device_is_byte_array {s : State}
    (hrun : Run (step aes d) (Asked d size) (start aes d dev) s) :
    Faithful aes d s ∧
    (∀ f offset count, Inside d size offset count →
      ReadSpec aes d f s.dev offset count (luksDeviceRead aes d f s.dev offset count) ∧
      ∀ buf, luksDeviceRead aes d f s.dev offset count = .ok buf →
        ∀ (i : Fin count) v, s.known (offset + i) = some v → buf i = v) ∧
    (∀ f offset count data, Inside d size offset count →
      WriteSpec aes d f s.dev offset count data
        (luksDeviceWrite aes d f s.dev offset count data)) ∧
    (∀ i p,
      (d.cipher aes).enc i p = xts (aes d.key.dataKey)
        (aes d.key.tweakKey (aesXtsPlain64Tweak (i * (d.sectorSize / 512)))) p ∧
      (d.cipher aes).dec i p = xts (aes d.key.dataKey).symm
        (aes d.key.tweakKey (aesXtsPlain64Tweak (i * (d.sectorSize / 512)))) p) := by
  have hfaithful : Faithful aes d s :=
    hrun.invariant (fun _ _ _ => step_faithful) (start_faithful dev)
  refine ⟨hfaithful, fun f offset count h => ⟨luksDeviceRead_spec h, ?_⟩,
    fun f offset count data h => luksDeviceWrite_spec h data, fun i p => ⟨rfl, rfl⟩⟩
  intro buf hread i v hknown
  rw [luksDeviceRead_ok h hread]
  exact hfaithful _ _ hknown

/-- A cipher that exchanges the bits of every byte. -/
def flip : Aes := fun _ => (maskBlock_involutive fun _ => 0xff).toPerm

/-- A device of 512-byte sectors behind a header of 4096 bytes. -/
def small : LuksDevice where
  key := ⟨[1], [2]⟩
  payloadOffset := 4096
  sectorSize := 512
  ivScale := 1
  writable := true
  sector_ok := by decide
  iv_ok := by decide

/-- Calls none of which fails. -/
def quiet : DeviceCalls := ⟨some fun _ => 0, none, fun _ _ _ => false, .lands⟩

/-- A byte written to a device of zeros is read back. -/
theorem unlocked_device_reads_back : ∃ s, Run (step flip small) (Asked small 8192)
      (start flip small fun _ => 0) s ∧
    ∀ buf, luksDeviceRead flip small quiet s.dev 600 1 = .ok buf → buf 0 = 7 := by
  have hinside : Inside small 8192 600 1 := ⟨by decide, by decide⟩
  have hclean : quiet.Clean := ⟨by simp [quiet], rfl, fun _ _ _ => rfl, rfl⟩
  obtain ⟨command, hcommand⟩ := writeCommand_clean hinside rfl hclean fun _ => 7
  have hrun : Run (step flip small) (Asked small 8192) (start flip small fun _ => 0) _ :=
    .event (.write 600 1 fun _ => 7, quiet) (.refl _) hinside rfl
  refine ⟨_, hrun, fun buf hread => ?_⟩
  refine ((unlocked_device_is_byte_array hrun).2.1 quiet 600 1 hinside).2 buf hread 0 7 ?_
  dsimp only [start]
  rw [hcommand]
  cases command with
  | none => exact absurd (writeCommand_none hcommand) one_ne_zero
  | some command =>
      have hlands : SectorLands small quiet.write.landed true 600 := fun _ _ => rfl
      simp [learn, hlands]

end Luks
