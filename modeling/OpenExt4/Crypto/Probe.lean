import OpenExt4.Crypto.Header
import OpenExt4.Crypto.Json

set_option autoImplicit false

/-! # Probing a container

`luks_probe` reads the header of a container and says what it advertises, or why the driver does
not open it. The facts of a LUKS2 container come out of its metadata, which is JSON. -/

namespace Luks

open Bytes

/-- `luks_status`. -/
inductive LuksStatus where
  | ok
  | notLuks
  | unsupported
  | badPassphrase
  | unreadable
  | corrupt
  deriving DecidableEq, Repr

def luksMaxMasterKey : ℕ := 64

def l1HeaderLen : ℕ := 592

def l1CipherName : ℕ := 8

def l1CipherMode : ℕ := 40

def l1HashSpec : ℕ := 72

def l1PayloadOffset : ℕ := 104

def l1KeyBytes : ℕ := 108

def l1Uuid : ℕ := 168

def l1Sector : ℕ := 512

def l2MaxTokens : ℕ := 4096

/-- `snprintf` into the 160 bytes of `unsupported`. -/
def LuksInfo.because (info : LuksInfo) (why : List UInt8) : LuksInfo :=
  { info with unsupported := why.take 159 }

def decimal (n : ℕ) : List UInt8 := ascii (toString n)

/-- `copy_field`: a fixed-width field, cut to the buffer of `dstLen` bytes that it goes to. -/
def copyField (dstLen : ℕ) (field : List UInt8) : List UInt8 := cString (field.take (dstLen - 1))

/-- `supported_cipher`: anything not explicitly vetted is refused. -/
def supportedCipher (info : LuksInfo) : Bool × LuksInfo :=
  if info.cipher ≠ ascii "aes" then
    (false, info.because
      (ascii "cipher \"" ++ info.cipher ++ ascii "\" (only aes is implemented)"))
  else if info.mode ≠ ascii "xts-plain64" then
    (false, info.because
      (ascii "mode \"" ++ info.mode ++ ascii "\" (only xts-plain64 is implemented)"))
  else if info.keyBytes ≠ 32 ∧ info.keyBytes ≠ 64 then
    (false, info.because
      (decimal info.keyBytes ++ ascii "-byte master key (expected 32 or 64 for aes-xts)"))
  else if cryptoHashByName info.hash = none then
    (false, info.because
      (ascii "hash \"" ++ info.hash ++ ascii "\" (only sha1, sha256 and sha512 are implemented)"))
  else (true, info)

/-- The last step of both probes. -/
def vetted (info : LuksInfo) : LuksStatus × LuksInfo :=
  let r := supportedCipher info
  (if r.1 then .ok else .unsupported, r.2)

def probeLuks1 (hdr : Buf l1HeaderLen) (out : LuksInfo) : LuksStatus × LuksInfo :=
  let out := { out with
    version := 1
    cipher := copyField 32 (toList (slice hdr l1CipherName 32))
    mode := copyField 32 (toList (slice hdr l1CipherMode 32))
    hash := copyField 32 (toList (slice hdr l1HashSpec 32))
    uuid := copyField 41 (toList (slice hdr l1Uuid 40))
    keyBytes := getBE 4 hdr l1KeyBytes
    sectorSize := l1Sector
    payloadOffset := getBE 4 hdr l1PayloadOffset * l1Sector }
  if out.payloadOffset < l1HeaderLen then (.corrupt, out)
  else if out.keyBytes = 0 ∨ luksMaxMasterKey < out.keyBytes then (.corrupt, out)
  else vetted out

/-- `split_encryption`: "aes-xts-plain64" is cipher "aes", mode "xts-plain64". -/
def splitEncryption (spec : List UInt8) (cipherLen modeLen : ℕ) :
    Option (List UInt8 × List UInt8) :=
  match spec.dropWhile (· ≠ 0x2d) with
  | [] => none
  | _ :: mode =>
    let cipher := spec.takeWhile (· ≠ 0x2d)
    if cipherLen ≤ cipher.length ∨ modeLen ≤ mode.length then none else some (cipher, mode)

/-- The part of `probe_luks2` behind the parser: what the metadata says. -/
def probeMetadata (js : List UInt8) (toks : List JsonTok) (out : LuksInfo) :
    LuksStatus × LuksInfo :=
  let get obj (key : String) := jsonObjectGet js toks obj (ascii key)
  match jsonObjectKeyAt toks (get (some 0) "segments") 0 with
  | none => (.corrupt, out.because (ascii "the LUKS2 metadata declares no data segment"))
  | some segKey =>
    let seg := some (jsonSkip toks (some segKey))
    let type := get seg "type"
    if jsonEquals js toks type (ascii "crypt") = false then
      let got := (jsonCopy js toks type 32).getD (ascii "?")
      (.unsupported, out.because
        (ascii "segment type \"" ++ got ++ ascii "\" (only \"crypt\" is implemented)"))
    else
      match jsonGetU64 js toks (get seg "offset"), jsonCopy js toks (get seg "encryption") 64 with
      | some offset, some enc =>
        -- sector_size and iv_tweak are optional; the defaults are the common case
        let sector := (jsonGetU64 js toks (get seg "sector_size")).getD 512
        let tweak := (jsonGetU64 js toks (get seg "iv_tweak")).getD 0
        if tweak ≠ 0 then
          (.unsupported, out.because
            (ascii "a non-zero iv_tweak (" ++ decimal tweak ++ ascii ") is not implemented"))
        else if sector = 0 ∨ sector % 512 ≠ 0 ∨ 65536 < sector then
          (.unsupported, out.because (ascii "sector size " ++ decimal sector))
        else
          match splitEncryption enc 32 32 with
          | none =>
            (.unsupported, out.because (ascii "cipher specification \"" ++ enc ++ ascii "\""))
          | some (cipher, mode) =>
            let out := { out with cipher := cipher, mode := mode }
            -- the master key length lives on the key slots, not the segment
            let ksKey := jsonObjectKeyAt toks (get (some 0) "keyslots") 0
            let ks := ksKey.map fun k => jsonSkip toks (some k)
            match jsonGetU64 js toks (get ks "key_size") with
            | none =>
              (.corrupt, out.because (ascii "the LUKS2 metadata declares no usable key slot"))
            | some keySize =>
              if keySize = 0 ∨ luksMaxMasterKey < keySize then
                (.corrupt, out.because
                  (ascii "master key length " ++ decimal keySize ++ ascii " out of range"))
              else
                vetted { out with
                  payloadOffset := offset
                  sectorSize := sector % 2 ^ 32
                  keyBytes := keySize % 2 ^ 32
                  hash := ascii "sha256" }
      | _, _ =>
        (.corrupt, out.because (ascii "the LUKS2 data segment is missing its offset or cipher"))

def probeLuks2 (mc : Machine) (m : Medium) (out : LuksInfo) : LuksStatus × LuksInfo :=
  let out := { out with version := 2 }
  match luks2Load mc m with
  | none =>
    (.corrupt, out.because (ascii "neither copy of the LUKS2 header passed its checksum"))
  | some hdr =>
    let out := { out with uuid := cString (toList hdr.uuid) }
    if mc.calloc = false then (.unreadable, out)
    else
      match jsonParse hdr.json l2MaxTokens with
      | .ok (t :: toks) => probeMetadata hdr.json (t :: toks) out
      | _ => (.corrupt, out.because (ascii "the LUKS2 metadata is not readable JSON"))

/-- An info block with every field zero. -/
def blankInfo : LuksInfo where
  version := 0
  cipher := []
  mode := []
  hash := []
  payloadOffset := 0
  keyBytes := 0
  sectorSize := 0
  uuid := []
  unsupported := []

def luksProbe (mc : Machine) (m : Medium) : LuksStatus × LuksInfo :=
  match m.read 0 l1HeaderLen with
  | none => (.unreadable, blankInfo)
  | some hdr =>
    if slice hdr 0 6 ≠ luksMagic then (.notLuks, blankInfo)
    else
      let version := getBE 2 hdr l1Version
      if version = 1 then probeLuks1 hdr blankInfo
      else if version = 2 then probeLuks2 mc m blankInfo
      else
        (.unsupported, { blankInfo with version := version }.because
          (ascii "LUKS version " ++ decimal version
            ++ ascii " is not a format this driver knows"))

/-! ## What is accepted -/

variable {mc : Machine} {m : Medium} {js : List UInt8} {toks : List JsonTok} {info out : LuksInfo}

theorem vetted_ok (h : vetted info = (.ok, out)) :
    out = info ∧ info.cipher = ascii "aes" ∧ info.mode = ascii "xts-plain64" ∧
      (info.keyBytes = 32 ∨ info.keyBytes = 64) := by
  unfold vetted supportedCipher at h
  split_ifs at h with hcipher hmode hkey hhash
  all_goals simp at h
  exact ⟨h.symm, not_not.mp hcipher, not_not.mp hmode, by omega⟩

/-- A cipher specification is its two parts with a dash between them. -/
theorem splitEncryption_eq {spec cipher mode : List UInt8} {cipherLen modeLen : ℕ}
    (h : splitEncryption spec cipherLen modeLen = some (cipher, mode)) :
    spec = cipher ++ 0x2d :: mode := by
  unfold splitEncryption at h
  have hsplit := List.takeWhile_append_dropWhile (p := fun c : UInt8 => decide (c ≠ 0x2d)) (l := spec)
  split at h
  · cases h
  · next dash rest hrest =>
      dsimp only at h
      split_ifs at h
      obtain ⟨rfl, rfl⟩ := Prod.mk.inj (Option.some.inj h)
      have hdash : dash = 0x2d := by
        have hhead := List.head?_dropWhile_not (fun c : UInt8 => decide (c ≠ 0x2d)) spec
        rw [hrest] at hhead
        simpa using hhead
      rw [hrest, hdash] at hsplit
      exact hsplit.symm

/-- The member of an object, as the probe looks it up. -/
def memberOf (js : List UInt8) (toks : List JsonTok) (obj : Option ℕ) (key : String) : Option ℕ :=
  jsonObjectGet js toks obj (ascii key)

/-- The text of a token. -/
def HasText (js : List UInt8) (toks : List JsonTok) (idx : Option ℕ) (s : List UInt8) : Prop :=
  ∃ t, jsonAt toks idx = some t ∧ jsonText js t = s

/-- The value of an object's first member. -/
def FirstValue (toks : List JsonTok) (obj : Option ℕ) (value : ℕ) : Prop :=
  ∃ key, jsonObjectKeyAt toks obj 0 = some key ∧ value = jsonSkip toks (some key)

/-- **What the metadata of an accepted container says**: the first segment is an aes-xts-plain64 one
    at the payload offset, in sectors of the size it names (512 bytes if it names none) and with no
    IV tweak, and the first key slot is for a master key of the length taken. Every number is the
    decimal one in the document. -/
structure Advertises (js : List UInt8) (toks : List JsonTok) (info : LuksInfo) (seg ks : ℕ) :
    Prop where
  segment : FirstValue toks (memberOf js toks (some 0) "segments") seg
  type : HasText js toks (memberOf js toks (some seg) "type") (ascii "crypt")
  encryption : HasText js toks (memberOf js toks (some seg) "encryption") (ascii "aes-xts-plain64")
  offset : IsNumber js toks (memberOf js toks (some seg) "offset") info.payloadOffset
  sector : ∀ v, IsNumber js toks (memberOf js toks (some seg) "sector_size") v → info.sectorSize = v
  sector_default : memberOf js toks (some seg) "sector_size" = none → info.sectorSize = 512
  sector_ok : info.sectorSize % 512 = 0 ∧ 512 ≤ info.sectorSize ∧ info.sectorSize ≤ 65536
  tweak : ∀ v, IsNumber js toks (memberOf js toks (some seg) "iv_tweak") v → v = 0
  keyslot : FirstValue toks (memberOf js toks (some 0) "keyslots") ks
  key : IsNumber js toks (memberOf js toks (some ks) "key_size") info.keyBytes
  key_ok : info.keyBytes = 32 ∨ info.keyBytes = 64

/-- A member is there for a number to be read from it. -/
theorem key_of_number {key : Option ℕ} {name : List UInt8} {v : ℕ}
    (h : jsonGetU64 js toks (jsonObjectGet js toks (key.map fun k => jsonSkip toks (some k)) name)
      = some v) : ∃ k, key = some k := by
  cases key with
  | none => simp [jsonObjectGet, members, jsonGetU64, jsonAt] at h
  | some k => exact ⟨k, rfl⟩

theorem jsonEquals_iff {idx : Option ℕ} {text : List UInt8} :
    jsonEquals js toks idx text = true ↔ HasText js toks idx text := by
  unfold jsonEquals HasText
  cases jsonAt toks idx <;> simp

theorem jsonCopy_hasText {idx : Option ℕ} {outLen : ℕ} {text : List UInt8}
    (h : jsonCopy js toks idx outLen = some text) : HasText js toks idx text := by
  unfold jsonCopy at h
  cases ht : jsonAt toks idx with
  | none => simp [ht] at h
  | some t =>
      simp only [ht] at h
      split_ifs at h
      exact ⟨t, ht, Option.some.inj h⟩

/-- The metadata behind an accepting run of the probe. -/
theorem probeMetadata_ok (h : probeMetadata js toks out = (.ok, info)) :
    (∃ seg ks, Advertises js toks info seg ks) ∧ info.version = out.version := by
  unfold probeMetadata at h
  dsimp only at h
  split at h
  · simp at h
  next segKey hsegKey =>
    split at h
    · simp at h
    next htype =>
      split at h
      · next offset enc hoffset henc =>
          generalize hsize : jsonGetU64 js toks (jsonObjectGet js toks
            (some (jsonSkip toks (some segKey))) (ascii "sector_size")) = size at h
          generalize htweaks : jsonGetU64 js toks (jsonObjectGet js toks
            (some (jsonSkip toks (some segKey))) (ascii "iv_tweak")) = tweaks at h
          split_ifs at h with htweak hsector
          · simp at h
          · simp at h
          split at h
          · simp at h
          next cipher mode hsplit =>
            split at h
            · simp at h
            next keySize hkey =>
              split_ifs at h with hrange
              · simp at h
              obtain ⟨rfl, rfl, rfl, hlen⟩ := vetted_ok h
              dsimp only at hlen
              obtain ⟨ksKey, hks⟩ := key_of_number hkey
              rw [hks, Option.map_some] at hkey
              rw [luksMaxMasterKey] at hrange
              have hkeySize : keySize % 2 ^ 32 = keySize := Nat.mod_eq_of_lt (by omega)
              have hsectorSize : size.getD 512 % 2 ^ 32 = size.getD 512 :=
                Nat.mod_eq_of_lt (by omega)
              have hspec : enc = ascii "aes-xts-plain64" :=
                (splitEncryption_eq hsplit).trans (by decide)
              refine ⟨⟨jsonSkip toks (some segKey), jsonSkip toks (some ksKey), ?_⟩, rfl⟩
              refine ⟨⟨segKey, hsegKey, rfl⟩, jsonEquals_iff.mp (Bool.eq_true_of_not_eq_false htype), ?_,
                jsonGetU64_eq_some.mp hoffset, ?_, ?_, ?_, ?_, ⟨ksKey, hks, rfl⟩, ?_, hlen⟩
              · exact hspec ▸ jsonCopy_hasText henc
              · intro v hv
                rw [← jsonGetU64_eq_some, memberOf, hsize] at hv
                simp only [hv, Option.getD_some] at hsectorSize ⊢
                exact hsectorSize
              · intro hnone
                rw [memberOf] at hnone
                rw [hnone] at hsize
                simp [← hsize, jsonGetU64, jsonAt]
              · simp only [hsectorSize]
                omega
              · intro v hv
                rw [← jsonGetU64_eq_some, memberOf, htweaks] at hv
                simpa [hv] using htweak
              · rw [hkeySize]
                exact jsonGetU64_eq_some.mp hkey
      · simp at h

theorem probeLuks1_version {hdr : Buf l1HeaderLen} (h : probeLuks1 hdr out = (.ok, info)) :
    info.version = 1 := by
  unfold probeLuks1 at h
  dsimp only at h
  split_ifs at h
  · simp at h
  · simp at h
  · rw [(vetted_ok h).1]

/-- **The LUKS2 probe accepts what it can read.** If it reports a container usable, the header that
    was selected carries metadata that says so. -/
theorem luks2_probe_reads (h : luksProbe mc m = (.ok, info)) (hversion : info.version = 2) :
    ∃ hdr toks seg ks, luks2Load mc m = some hdr ∧
      jsonParse hdr.json l2MaxTokens = .ok toks ∧ Advertises hdr.json toks info seg ks := by
  unfold luksProbe at h
  split at h
  · simp at h
  next hdr hread =>
    dsimp only at h
    split_ifs at h with hmagic hone htwo
    · simp at h
    · have := probeLuks1_version h
      omega
    · unfold probeLuks2 at h
      split at h
      · simp at h
      next header hload =>
        dsimp only at h
        split_ifs at h
        · simp at h
        split at h
        · next t toks hparse =>
            obtain ⟨⟨seg, ks, hsays⟩, -⟩ := probeMetadata_ok h
            exact ⟨header, t :: toks, seg, ks, hload, hparse, hsays⟩
        · simp at h
    · simp at h

section container

variable {recorded : UInt8} {t : JsonTok}

/-- A container goes through the probe as its metadata does. -/
theorem container_probe (hmalloc : ∀ base n, mc.malloc base n = true) (hcalloc : mc.calloc = true)
    (hlen : js.length < 4096) (hnul : ∀ c ∈ js, c ≠ 0)
    (hparse : jsonParse js l2MaxTokens = .ok (t :: toks)) :
    luksProbe mc (container mc recorded js)
      = probeMetadata js (t :: toks) { blankInfo with version := 2 } := by
  have hgood : Good mc (container mc recorded js) 0 luksMagic := container_good hmalloc
  have hbyte (n i : ℕ) (hi : i < n) :
      get8 ((container mc recorded js).window 0 n) i = (container mc recorded js).bytes i := by
    simp [get8, hi, Medium.window]
  have hbin (i : ℕ) (hi : i < l1HeaderLen) :
      get8 ((container mc recorded js).window 0 l1HeaderLen) i
        = get8 ((container mc recorded js).window 0 l2BinLen) i := by
    have hi' : i < l2BinLen := by
      rw [l2BinLen_eq]
      unfold l1HeaderLen at hi
      omega
    rw [hbyte _ _ hi, hbyte _ _ hi']
  have hmagic : slice ((container mc recorded js).window 0 l1HeaderLen) 0 6 = luksMagic := by
    rw [← hgood.sound.magic]
    funext i
    exact hbin _ (by have := i.isLt; unfold l1HeaderLen; omega)
  have hversion : getBE 2 ((container mc recorded js).window 0 l1HeaderLen) l1Version = 2 := by
    have hsound : getBE 2 ((container mc recorded js).window 0 l2BinLen) l1Version = 2 :=
      hgood.sound.version
    simp only [getBE, l1Version] at hsound ⊢
    rwa [hbin _ (by decide), hbin _ (by decide)]
  have hread : (container mc recorded js).read 0 l1HeaderLen
      = some ((container mc recorded js).window 0 l1HeaderLen) := rfl
  rw [luksProbe, hread]
  dsimp only
  rw [if_neg (not_not.mpr hmagic), hversion, if_neg (by decide), if_pos rfl, probeLuks2,
    container_load hmalloc]
  dsimp only
  rw [hcalloc, if_neg (by decide), container_document hlen hnul, hparse, container_uuid]
  rfl

end container

/-! ## What is not looked at -/

/-- A machine whose hash is constant. -/
def plainMachine : Machine where
  sha _ _ := zeros _
  malloc _ _ := true
  calloc := true

/-- Metadata that the probe accepts. -/
def accepted (js : List UInt8) : Bool :=
  match jsonParse js l2MaxTokens with
  | .ok (t :: toks) => (probeMetadata js (t :: toks) { blankInfo with version := 2 }).1 = .ok
  | _ => false

theorem container_accepted (mc : Machine) (recorded : UInt8)
    (hmalloc : ∀ base n, mc.malloc base n = true) (hcalloc : mc.calloc = true)
    (hlen : js.length < 4096) (hnul : ∀ c ∈ js, c ≠ 0) (h : accepted js = true) :
    ∃ info toks, luksProbe mc (container mc recorded js) = (.ok, info) ∧ info.version = 2 ∧
      jsonParse js l2MaxTokens = .ok toks := by
  unfold accepted at h
  split at h
  · next t toks hparse =>
      have hprobe : probeMetadata js (t :: toks) { blankInfo with version := 2 }
          = (.ok, (probeMetadata js (t :: toks) { blankInfo with version := 2 }).2) :=
        Prod.ext (by simpa using h) rfl
      refine ⟨_, t :: toks, ?_, (probeMetadata_ok hprobe).2, hparse⟩
      rw [container_probe hmalloc hcalloc hlen hnul hparse]
      exact hprobe
  · cases h

/-! Documents, for the containers below. -/

def quoted (s : String) : List UInt8 := 0x22 :: (ascii s ++ [0x22])

def listed (parts : List (List UInt8)) : List UInt8 := (parts.intersperse [0x2c]).flatten

def jsonArray (parts : List (List UInt8)) : List UInt8 := 0x5b :: (listed parts ++ [0x5d])

def jsonObject (parts : List (String × List UInt8)) : List UInt8 :=
  0x7b :: (listed (parts.map fun p => quoted p.1 ++ 0x3a :: p.2) ++ [0x7d])

/-- A segment that the driver can read. -/
def cryptSegment : List UInt8 :=
  jsonObject [("type", quoted "crypt"), ("offset", quoted "8192"),
    ("encryption", quoted "aes-xts-plain64")]

/-- A container with one segment and one key slot. -/
def oneSegment : List UInt8 :=
  jsonObject [("segments", jsonObject [("0", cryptSegment)]),
    ("keyslots", jsonObject [("0", jsonObject [("key_size", ascii "32")])])]

/-- The same with a second segment, and with a requirement of the online reencryption. -/
def twoSegments : List UInt8 :=
  jsonObject [
    ("segments", jsonObject [("0", cryptSegment), ("1", jsonObject [("type", quoted "linear")])]),
    ("keyslots", jsonObject [("0", jsonObject [("key_size", ascii "32")])]),
    ("config", jsonObject [("requirements",
      jsonObject [("mandatory", jsonArray [quoted "online-reencrypt-v2"])])])]

/-- A container of one segment is accepted, and its metadata says what was taken. -/
theorem luks2_probe_reads_one : ∃ info hdr toks seg ks,
    luks2Load plainMachine (container plainMachine 0 oneSegment) = some hdr ∧
      jsonParse hdr.json l2MaxTokens = .ok toks ∧ Advertises hdr.json toks info seg ks := by
  have hlen : oneSegment.length < 4096 := by decide +kernel
  have hnul : ∀ c ∈ oneSegment, c ≠ 0 := by decide +kernel
  have haccepted : accepted oneSegment = true := by decide +kernel
  obtain ⟨info, -, hprobe, hversion, -⟩ :=
    container_accepted plainMachine 0 (fun _ _ => rfl) rfl hlen hnul haccepted
  exact ⟨info, luks2_probe_reads hprobe hversion⟩

/-- Metadata with several segments, a requirement, and no sector size for the first segment. -/
def overlooked (js : List UInt8) : Bool :=
  match jsonParse js l2MaxTokens with
  | .ok toks =>
    let segments := memberOf js toks (some 0) "segments"
    jsonObjectCount toks segments ≠ 1 &&
    (memberOf js toks (memberOf js toks (some 0) "config") "requirements").isSome &&
    (jsonObjectKeyAt toks segments 0).all fun key =>
      memberOf js toks (some (jsonSkip toks (some key))) "sector_size" = none
  | .error _ => false

/-- **Not all of the metadata is looked at**: whatever the platform, a container is accepted that
    has a second segment, a requirement that is not met and no sector size. -/
theorem metadata_not_read_wholly : ¬ ∃ mc : Machine, (∀ base n, mc.malloc base n = true) ∧
    mc.calloc = true ∧ ∀ m info hdr toks, luksProbe mc m = (.ok, info) → info.version = 2 →
      luks2Load mc m = some hdr → jsonParse hdr.json l2MaxTokens = .ok toks →
        jsonObjectCount toks (memberOf hdr.json toks (some 0) "segments") = 1 ∨
        memberOf hdr.json toks (memberOf hdr.json toks (some 0) "config") "requirements" = none ∨
        ∃ seg, FirstValue toks (memberOf hdr.json toks (some 0) "segments") seg ∧
          memberOf hdr.json toks (some seg) "sector_size" ≠ none := by
  rintro ⟨mc, hmalloc, hcalloc, hall⟩
  have hlen : twoSegments.length < 4096 := by decide +kernel
  have hnul : ∀ c ∈ twoSegments, c ≠ 0 := by decide +kernel
  have haccepted : accepted twoSegments = true := by decide +kernel
  obtain ⟨info, toks, hprobe, hversion, hparse⟩ :=
    container_accepted mc 0 hmalloc hcalloc hlen hnul haccepted
  have hdoc : ((container mc 0 twoSegments).headerAt 0).json = twoSegments :=
    container_document hlen hnul
  have hover : overlooked twoSegments = true := by decide +kernel
  have hcase := hall _ info _ toks hprobe hversion (container_load hmalloc) (by rw [hdoc, hparse])
  rw [hdoc] at hcase
  simp only [overlooked, hparse, Bool.and_eq_true, decide_eq_true_eq, ne_eq,
    Option.isSome_iff_ne_none] at hover
  obtain ⟨⟨hcount, hrequirements⟩, hsector⟩ := hover
  rcases hcase with hone | hnone | ⟨seg, ⟨key, hkey, rfl⟩, hsome⟩
  · exact hcount hone
  · exact hrequirements hnone
  · rw [hkey] at hsector
    simp only [Option.all_some, decide_eq_true_eq] at hsector
    exact hsome hsector

end Luks
