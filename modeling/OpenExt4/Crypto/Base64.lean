import OpenExt4.Crypto.Json
import OpenExt4.Crypto.Plain

set_option autoImplicit false

/-! # Base64 into a buffer

`base64_decode` store by store: what it returns and what it leaves in the buffer, in the runs that
fail too. It is the decoder of the metadata reader, and that decoder undoes the standard's padded
encoding. -/

namespace Luks

open Bytes

/-! ## The source -/

/-- How many bytes were put into a buffer, and the buffer. -/
structure B64Out where
  produced : ℕ
  out : ℕ → UInt8

/-- The characters of a group, from number `j` on: their values, and how many are padding. -/
def groupChars (last : Bool) : List UInt8 → ℕ → List ℕ → ℕ → Option (List ℕ × ℕ)
  | [], _, v, pad => some (v, pad)
  | c :: rest, j, v, pad =>
    if c = 0x3d then
      if last = false ∨ j < 2 then none else groupChars last rest (j + 1) (v ++ [0]) (pad + 1)
    else
      match b64Value c with
      | none => none
      | some x => if pad ≠ 0 then none else groupChars last rest (j + 1) (v ++ [x]) pad

/-- The 24 bits of a group. -/
def triple (v : List ℕ) : ℕ :=
  v.getD 0 0 <<< 18 ||| v.getD 1 0 <<< 12 ||| v.getD 2 0 <<< 6 ||| v.getD 3 0

/-- The bytes of a group with `pad` characters of padding. -/
def groupBytes (v : List ℕ) (pad : ℕ) : List UInt8 :=
  (List.range (3 - pad)).map fun j => UInt8.ofNat (triple v >>> (16 - 8 * j))

/-- Put bytes behind those that are there, while there is room; the error has the buffer. -/
def putBytes (outLen : ℕ) : List UInt8 → B64Out → Except (ℕ → UInt8) B64Out
  | [], st => .ok st
  | x :: rest, st =>
    if st.produced ≥ outLen then .error st.out
    else putBytes outLen rest
      { produced := st.produced + 1, out := Function.update st.out st.produced x }

/-- The loop over the groups. -/
def putGroups (outLen : ℕ) : List UInt8 → B64Out → Except (ℕ → UInt8) B64Out
  | a :: b :: c :: d :: rest, st =>
    match groupChars rest.isEmpty [a, b, c, d] 0 [] 0 with
    | none => .error st.out
    | some (v, pad) =>
      match putBytes outLen (groupBytes v pad) st with
      | .error buf => .error buf
      | .ok st => putGroups outLen rest st
  | _, st => .ok st

/-- The conversion of a `size_t` to an `int`. -/
def asInt (n : ℕ) : ℤ :=
  if n % 2 ^ 32 < 2 ^ 31 then (n % 2 ^ 32 : ℕ) else (n % 2 ^ 32 : ℕ) - 2 ^ 32

/-- `base64_decode`: what it returns, and the buffer behind `out`. -/
def base64DecodeInto (text : List UInt8) (outLen : ℕ) (out : ℕ → UInt8) : ℤ × (ℕ → UInt8) :=
  if text.length % 4 ≠ 0 then (-1, out)
  else
    match putGroups outLen text { produced := 0, out := out } with
    | .error buf => (-1, buf)
    | .ok st => (asInt st.produced, st.out)

/-! ## The standard's encoding -/

/-- The alphabet, in the order of the values. -/
def b64Alphabet : List UInt8 :=
  (List.range 26).map (fun i => UInt8.ofNat (0x41 + i))
    ++ (List.range 26).map (fun i => UInt8.ofNat (0x61 + i))
    ++ (List.range 10).map (fun i => UInt8.ofNat (0x30 + i)) ++ [0x2b, 0x2f]

def b64Char (v : ℕ) : UInt8 := b64Alphabet.getD v 0

/-- Three bytes are four characters; one or two at the end are padded. -/
def base64Encode : List UInt8 → List UInt8
  | [] => []
  | [a] => [b64Char (a.toNat / 4), b64Char (a.toNat % 4 * 16), 0x3d, 0x3d]
  | [a, b] => [b64Char (a.toNat / 4), b64Char (a.toNat % 4 * 16 + b.toNat / 16),
      b64Char (b.toNat % 16 * 4), 0x3d]
  | a :: b :: c :: rest => [b64Char (a.toNat / 4), b64Char (a.toNat % 4 * 16 + b.toNat / 16),
      b64Char (b.toNat % 16 * 4 + c.toNat / 64), b64Char (c.toNat % 64)] ++ base64Encode rest

/-- Characters of the alphabet in fours, of which the last one or two may be padding. -/
structure Padded (text : List UInt8) : Prop where
  fours : text.length % 4 = 0
  chars : ∃ body pad, text = body ++ List.replicate pad 0x3d ∧ pad ≤ 2 ∧ ∀ c ∈ body, c ∈ b64Alphabet

/-! ## The alphabet -/

theorem b64Value_char {v : ℕ} (hv : v < 64) :
    b64Value (b64Char v) = some v ∧ b64Char v ≠ 0x3d := by
  have hall : ∀ v < 64, b64Value (b64Char v) = some v ∧ b64Char v ≠ 0x3d := by decide
  exact hall v hv

/-- Every character with a value is the character of that value. -/
theorem b64Value_eq_some {c : UInt8} {v : ℕ} (h : b64Value c = some v) :
    v < 64 ∧ b64Char v = c := by
  have hall : ∀ n < 256, ∀ v ∈ b64Value (UInt8.ofNat n), v < 64 ∧ b64Char v = UInt8.ofNat n := by
    decide +kernel
  have hc : UInt8.ofNat c.toNat = c := UInt8.ofNat_toNat
  rw [← hc] at h ⊢
  exact hall c.toNat c.toNat_lt v h

theorem b64Char_mem {v : ℕ} (hv : v < 64) : b64Char v ∈ b64Alphabet := by
  have hall : ∀ v < 64, b64Char v ∈ b64Alphabet := by decide
  exact hall v hv

/-! ## A group -/

theorem b64Value_pad : b64Value 0x3d = none := by decide

/-- The 24 bits are the four values behind each other. -/
theorem triple_eq {a b c d : ℕ} (hb : b < 64) (hc : c < 64) (hd : d < 64) :
    triple [a, b, c, d] = a * 2 ^ 18 + b * 2 ^ 12 + c * 2 ^ 6 + d := by
  have hlow : c <<< 6 ||| d = c * 2 ^ 6 + d := by
    rw [← Nat.shiftLeft_add_eq_or_of_lt hd, Nat.shiftLeft_eq]
  have hmid : b <<< 12 ||| (c * 2 ^ 6 + d) = b * 2 ^ 12 + (c * 2 ^ 6 + d) := by
    rw [← Nat.shiftLeft_add_eq_or_of_lt (by omega), Nat.shiftLeft_eq]
  have htop : a <<< 18 ||| (b * 2 ^ 12 + (c * 2 ^ 6 + d))
      = a * 2 ^ 18 + (b * 2 ^ 12 + (c * 2 ^ 6 + d)) := by
    rw [← Nat.shiftLeft_add_eq_or_of_lt (by omega), Nat.shiftLeft_eq]
  unfold triple
  simp only [List.getD_cons_zero, List.getD_cons_succ]
  rw [Nat.lor_assoc, Nat.lor_assoc, hlow, hmid, htop]
  omega

theorem ofNat_congr {m n : ℕ} (h : m % 256 = n % 256) : UInt8.ofNat m = UInt8.ofNat n :=
  UInt8.toNat_inj.mp (by rw [UInt8.toNat_ofNat', UInt8.toNat_ofNat', h])

theorem ofNat_eq (x : UInt8) (n : ℕ) (h : n % 256 = x.toNat) : UInt8.ofNat n = x :=
  UInt8.toNat_inj.mp (by rw [UInt8.toNat_ofNat', h])

/-- What a group is turned into, byte by byte. -/
theorem groupBytes_eq {a b c d : ℕ} (hb : b < 64) (hc : c < 64) (hd : d < 64) {pad : ℕ}
    (hpad : pad ≤ 2) : groupBytes [a, b, c, d] pad
      = ([UInt8.ofNat (a * 4 + b / 16), UInt8.ofNat (b * 16 + c / 4), UInt8.ofNat (c * 64 + d)]).take
        (3 - pad) := by
  have hfirst : UInt8.ofNat (triple [a, b, c, d] >>> 16) = UInt8.ofNat (a * 4 + b / 16) :=
    ofNat_congr (by rw [triple_eq hb hc hd, Nat.shiftRight_eq_div_pow]; omega)
  have hsecond : UInt8.ofNat (triple [a, b, c, d] >>> 8) = UInt8.ofNat (b * 16 + c / 4) :=
    ofNat_congr (by rw [triple_eq hb hc hd, Nat.shiftRight_eq_div_pow]; omega)
  have hthird : UInt8.ofNat (triple [a, b, c, d]) = UInt8.ofNat (c * 64 + d) :=
    ofNat_congr (by rw [triple_eq hb hc hd]; omega)
  rw [← hfirst, ← hsecond, ← hthird]
  obtain rfl | rfl | rfl : pad = 0 ∨ pad = 1 ∨ pad = 2 := by omega
  all_goals rfl

/-- The loop over the characters of a group is the decoder's case split. -/
theorem groupChars_eq (last : Bool) (a b c d : UInt8) :
    (groupChars last [a, b, c, d] 0 [] 0).map (fun r => groupBytes r.1 r.2)
      = decodeGroup last a b c d := by
  by_cases ha : a = 0x3d
  · subst ha
    simp [groupChars, decodeGroup, b64Value_pad]
  cases hva : b64Value a with
  | none => simp [groupChars, decodeGroup, ha, hva]
  | some va =>
  by_cases hb : b = 0x3d
  · subst hb
    simp [groupChars, decodeGroup, ha, hva, b64Value_pad]
  cases hvb : b64Value b with
  | none => simp [groupChars, decodeGroup, ha, hb, hva, hvb]
  | some vb =>
  have hvb' := (b64Value_eq_some hvb).1
  by_cases hc : c = 0x3d
  · subst hc
    cases last with
    | false => simp [groupChars, decodeGroup, ha, hb, hva, hvb]
    | true =>
        by_cases hd : d = 0x3d
        · subst hd
          simp [groupChars, decodeGroup, ha, hb, hva, hvb, groupBytes_eq hvb']
        · cases hvd : b64Value d <;> simp [groupChars, decodeGroup, ha, hb, hd, hva, hvb, hvd]
  cases hvc : b64Value c with
  | none => simp [groupChars, decodeGroup, ha, hb, hc, hva, hvb, hvc]
  | some vc =>
  have hvc' := (b64Value_eq_some hvc).1
  by_cases hd : d = 0x3d
  · subst hd
    cases last <;>
      simp [groupChars, decodeGroup, ha, hb, hc, hva, hvb, hvc, groupBytes_eq hvb' hvc']
  cases hvd : b64Value d with
  | none => simp [groupChars, decodeGroup, ha, hb, hc, hd, hva, hvb, hvc, hvd]
  | some vd =>
    simp [groupChars, decodeGroup, ha, hb, hc, hd, hva, hvb, hvc, hvd,
      groupBytes_eq hvb' hvc' (b64Value_eq_some hvd).1]

/-! ## The buffer -/

/-- A run that stopped before the end of a buffer of `outLen` bytes left what is behind it alone. -/
def StoppedIn (outLen : ℕ) (out : ℕ → UInt8) (r : Except (ℕ → UInt8) B64Out) : Prop :=
  ∃ buf, r = .error buf ∧ ∀ i, outLen ≤ i → buf i = out i

/-- What a buffer is with more bytes behind those that are there. -/
def B64Out.append (st : B64Out) (bytes : List UInt8) : B64Out where
  produced := st.produced + bytes.length
  out := overlay st.out st.produced bytes.length (bytes.getD · 0)

@[simp] theorem append_nil (st : B64Out) : st.append [] = st := by
  have hout : overlay st.out st.produced 0 (([] : List UInt8).getD · 0) = st.out := by
    funext x
    rw [overlay_apply, if_neg (by omega)]
  rw [B64Out.append, List.length_nil, hout, Nat.add_zero]

theorem append_append (st : B64Out) (bytes more : List UInt8) :
    (st.append bytes).append more = st.append (bytes ++ more) := by
  unfold B64Out.append
  rw [List.length_append, Nat.add_assoc]
  congr 1
  funext x
  simp only [overlay_apply, List.getD_eq_getElem?_getD]
  by_cases hlow : x < st.produced + bytes.length
  · rw [if_neg (by omega)]
    by_cases hin : st.produced ≤ x
    · rw [if_pos (by omega), if_pos (by omega), List.getElem?_append_left (by omega)]
    · rw [if_neg (by omega), if_neg (by omega)]
  · by_cases hin : x < st.produced + (bytes.length + more.length)
    · rw [if_pos (by omega), if_pos (by omega), List.getElem?_append_right (by omega), Nat.sub_sub]
    · rw [if_neg (by omega), if_neg (by omega), if_neg (by omega)]

/-- Bytes are put where there is room for all of them, and nothing is put behind the end. -/
theorem putBytes_eq {outLen : ℕ} (bytes : List UInt8) {st : B64Out} (hst : st.produced ≤ outLen) :
    if st.produced + bytes.length ≤ outLen then putBytes outLen bytes st = .ok (st.append bytes)
    else StoppedIn outLen st.out (putBytes outLen bytes st) := by
  induction bytes generalizing st with
  | nil =>
      rw [List.length_nil, Nat.add_zero, if_pos hst, append_nil]
      rfl
  | cons x rest ih =>
      rw [putBytes, List.length_cons]
      by_cases hfull : st.produced ≥ outLen
      · rw [if_pos hfull, if_neg (by omega)]
        exact ⟨st.out, rfl, fun _ _ => rfl⟩
      · have hone : { produced := st.produced + 1, out := Function.update st.out st.produced x }
            = st.append [x] := by
          unfold B64Out.append
          congr 1
          funext i
          rw [overlay_apply, List.length_singleton]
          by_cases hi : i = st.produced
          · subst hi
            simp
          · rw [Function.update_of_ne hi, if_neg (by omega)]
        have hrest := @ih (st.append [x]) (by simp [B64Out.append]; omega)
        rw [if_neg hfull, hone]
        by_cases hroom : st.produced + (rest.length + 1) ≤ outLen
        · rw [if_pos (by simp [B64Out.append]; omega), append_append] at hrest
          rw [if_pos hroom, hrest, List.singleton_append]
        · rw [if_neg (by simp [B64Out.append]; omega)] at hrest
          obtain ⟨buf, hbuf, hframe⟩ := hrest
          rw [if_neg hroom]
          refine ⟨buf, hbuf, fun i hi => (hframe i hi).trans ?_⟩
          rw [← hone]
          exact Function.update_of_ne (by omega) _ _

/-- The loop over the groups puts what the decoder makes of the text where there is room for it, and
    otherwise stops. -/
def Tracks (outLen : ℕ) (text : List UInt8) (st : B64Out) : Prop :=
  (∃ bytes, decodeGroups text = some bytes ∧ st.produced + bytes.length ≤ outLen ∧
      putGroups outLen text st = .ok (st.append bytes)) ∨
    ((∀ bytes, decodeGroups text = some bytes → outLen < st.produced + bytes.length) ∧
      StoppedIn outLen st.out (putGroups outLen text st))

theorem decodeGroups_cons (a b c d : UInt8) (rest : List UInt8) :
    decodeGroups (a :: b :: c :: d :: rest)
      = (decodeGroup rest.isEmpty a b c d).bind fun bytes =>
        (decodeGroups rest).map (bytes ++ ·) := by
  rw [decodeGroups]
  cases decodeGroup rest.isEmpty a b c d <;> cases decodeGroups rest <;> rfl

/-- One turn of the loop. -/
theorem Tracks.cons {outLen : ℕ} {a b c d : UInt8} {rest : List UInt8} {st : B64Out}
    (hst : st.produced ≤ outLen)
    (hrest : ∀ {st : B64Out}, st.produced ≤ outLen → Tracks outLen rest st) :
    Tracks outLen (a :: b :: c :: d :: rest) st := by
  have hgroup := groupChars_eq rest.isEmpty a b c d
  unfold Tracks
  rw [decodeGroups_cons, ← hgroup, putGroups]
  cases groupChars rest.isEmpty [a, b, c, d] 0 [] 0 with
  | none => exact Or.inr ⟨fun bytes h => by simp at h, st.out, rfl, fun _ _ => rfl⟩
  | some r =>
      obtain ⟨v, pad⟩ := r
      have hput := putBytes_eq (groupBytes v pad) hst
      rw [Option.map_some, Option.bind_some]
      dsimp only
      by_cases hroom : st.produced + (groupBytes v pad).length ≤ outLen
      · rw [if_pos hroom] at hput
        rw [hput]
        rcases @hrest (st.append (groupBytes v pad)) hroom with
          ⟨more, hmore, hfits, hok⟩ | ⟨hno, buf, herr, hframe⟩
        · refine Or.inl ⟨groupBytes v pad ++ more, by rw [hmore, Option.map_some], ?_, ?_⟩
          · simp only [B64Out.append] at hfits
            rw [List.length_append]
            omega
          · exact hok.trans (by rw [append_append])
        · refine Or.inr ⟨fun bytes h => ?_, buf, herr, fun i hi => (hframe i hi).trans ?_⟩
          · obtain ⟨more, hmore, rfl⟩ := Option.map_eq_some_iff.mp h
            have hover := hno more hmore
            simp only [B64Out.append] at hover
            rw [List.length_append]
            omega
          · rw [B64Out.append]
            dsimp only
            rw [overlay_apply, if_neg (by omega)]
      · rw [if_neg hroom] at hput
        obtain ⟨buf, herr, hframe⟩ := hput
        rw [herr]
        refine Or.inr ⟨fun bytes h => ?_, buf, rfl, hframe⟩
        obtain ⟨more, hmore, rfl⟩ := Option.map_eq_some_iff.mp h
        rw [List.length_append]
        omega

/-- **The loop over the groups** is the decoder. -/
theorem putGroups_tracks {outLen : ℕ} {text : List UInt8} (hlen : text.length % 4 = 0) {st : B64Out}
    (hst : st.produced ≤ outLen) : Tracks outLen text st := by
  induction text using decodeGroups.induct generalizing st with
  | case1 => exact Or.inl ⟨[], rfl, by simpa using hst, by simp [putGroups]⟩
  | case2 a b c d rest bytes more hmore hbytes ih =>
      simp only [List.length_cons] at hlen
      exact Tracks.cons hst (ih (by omega))
  | case3 a b c d rest hno ih =>
      simp only [List.length_cons] at hlen
      exact Tracks.cons hst (ih (by omega))
  | case4 text hne hshort =>
      match text, hne, hshort with
      | [], hne, _ => exact absurd rfl hne
      | [_], _, _ => simp at hlen
      | [_, _], _, _ => simp at hlen
      | [_, _, _], _, _ => simp at hlen
      | a :: b :: c :: d :: rest, _, hshort => exact (hshort a b c d rest rfl).elim

/-- A text that is decoded consists of whole groups. -/
theorem length_of_decodeGroups {text bytes : List UInt8} (h : decodeGroups text = some bytes) :
    text.length % 4 = 0 := by
  induction text using decodeGroups.induct generalizing bytes with
  | case1 => rfl
  | case2 a b c d rest _ more hmore _ ih =>
      have hrest := ih hmore
      simp only [List.length_cons]
      omega
  | case3 a b c d rest hno _ =>
      rw [decodeGroups_cons] at h
      obtain ⟨bytes, hbytes, h⟩ := Option.bind_eq_some_iff.mp h
      obtain ⟨more, hmore, -⟩ := Option.map_eq_some_iff.mp h
      exact (hno bytes more hbytes hmore).elim
  | case4 text hne hshort =>
      rw [decodeGroups.eq_3 _ hne hshort] at h
      cases h

/-- **What `base64_decode` does**: what the decoder makes of the text if the buffer holds it, and
    otherwise a failure, and nothing behind the end of the buffer. -/
theorem base64DecodeInto_eq (text : List UInt8) (outLen : ℕ) (out : ℕ → UInt8) :
    match base64Decode text outLen with
    | some bytes => base64DecodeInto text outLen out
        = (asInt bytes.length, overlay out 0 bytes.length (bytes.getD · 0))
    | none => ∃ buf, base64DecodeInto text outLen out = (-1, buf) ∧
        ∀ i, outLen ≤ i → buf i = out i := by
  unfold base64Decode base64DecodeInto
  by_cases hlen : text.length % 4 = 0
  · rw [if_neg (not_not.mpr hlen)]
    rcases @putGroups_tracks outLen text hlen ⟨0, out⟩ (Nat.zero_le _) with
      ⟨bytes, hbytes, hfits, hok⟩ | ⟨hno, buf, herr, hframe⟩
    · rw [Nat.zero_add] at hfits
      rw [hbytes, hok]
      dsimp only
      rw [if_neg (by omega)]
      simp [B64Out.append]
    · rw [herr]
      cases hbytes : decodeGroups text with
      | none => exact ⟨buf, rfl, hframe⟩
      | some bytes =>
          have hover := hno bytes hbytes
          rw [Nat.zero_add] at hover
          dsimp only
          rw [if_pos hover]
          exact ⟨buf, rfl, hframe⟩
  · rw [if_pos hlen]
    cases hbytes : decodeGroups text with
    | none => exact ⟨out, rfl, fun _ _ => rfl⟩
    | some bytes => exact absurd (length_of_decodeGroups hbytes) hlen

/-! ## The encoding -/

theorem isEmpty_base64Encode (b : List UInt8) : (base64Encode b).isEmpty = b.isEmpty := by
  match b with
  | [] => rfl
  | [_] => rfl
  | [_, _] => rfl
  | _ :: _ :: _ :: _ => rfl

/-- A full group is decoded wherever it stands. -/
theorem decodeGroup_full (last : Bool) (a b c : UInt8) :
    decodeGroup last (b64Char (a.toNat / 4)) (b64Char (a.toNat % 4 * 16 + b.toNat / 16))
      (b64Char (b.toNat % 16 * 4 + c.toNat / 64)) (b64Char (c.toNat % 64)) = some [a, b, c] := by
  have ha := a.toNat_lt
  have hb := b.toNat_lt
  have hc := c.toNat_lt
  have hv₁ := b64Value_char (v := a.toNat / 4) (by omega)
  have hv₂ := b64Value_char (v := a.toNat % 4 * 16 + b.toNat / 16) (by omega)
  have hv₃ := b64Value_char (v := b.toNat % 16 * 4 + c.toNat / 64) (by omega)
  have hv₄ := b64Value_char (v := c.toNat % 64) (by omega)
  rw [decodeGroup, hv₁.1, hv₂.1, hv₃.1, hv₄.1]
  simp only [hv₃.2, hv₄.2, if_false]
  rw [ofNat_eq a _ (by omega), ofNat_eq b _ (by omega), ofNat_eq c _ (by omega)]

/-- **The decoder undoes the encoding.** -/
theorem decodeGroups_encode (b : List UInt8) : decodeGroups (base64Encode b) = some b := by
  induction b using base64Encode.induct with
  | case1 => rfl
  | case2 a =>
      have ha := a.toNat_lt
      have hv₁ := b64Value_char (v := a.toNat / 4) (by omega)
      have hv₂ := b64Value_char (v := a.toNat % 4 * 16) (by omega)
      rw [base64Encode, decodeGroups_cons, decodeGroup, hv₁.1, hv₂.1]
      dsimp only
      rw [if_pos rfl, if_pos ⟨rfl, rfl⟩, ofNat_eq a _ (by omega)]
      rfl
  | case3 a b =>
      have ha := a.toNat_lt
      have hb := b.toNat_lt
      have hv₁ := b64Value_char (v := a.toNat / 4) (by omega)
      have hv₂ := b64Value_char (v := a.toNat % 4 * 16 + b.toNat / 16) (by omega)
      have hv₃ := b64Value_char (v := b.toNat % 16 * 4) (by omega)
      rw [base64Encode, decodeGroups_cons, decodeGroup, hv₁.1, hv₂.1]
      dsimp only
      rw [if_neg hv₃.2, hv₃.1]
      dsimp only
      rw [if_pos List.isEmpty_nil, ofNat_eq a _ (by omega), ofNat_eq b _ (by omega)]
      rfl
  | case4 a b c rest ih =>
      rw [base64Encode, List.cons_append, List.cons_append, List.cons_append, List.cons_append,
        List.nil_append, decodeGroups_cons, decodeGroup_full, ih]
      rfl

/-- The padding a group of a text the decoder takes can have. -/
theorem padded_of_decodeGroup {last : Bool} {a b c d : UInt8} {bytes : List UInt8}
    (h : decodeGroup last a b c d = some bytes) :
    ∃ body pad, [a, b, c, d] = body ++ List.replicate pad 0x3d ∧ pad ≤ 2 ∧
      (∀ x ∈ body, x ∈ b64Alphabet) ∧ (last = false → pad = 0) := by
  have hmem {x : UInt8} {v : ℕ} (hx : b64Value x = some v) : x ∈ b64Alphabet := by
    obtain ⟨hv, rfl⟩ := b64Value_eq_some hx
    exact b64Char_mem hv
  unfold decodeGroup at h
  cases ha : b64Value a with
  | none => simp [ha] at h
  | some va =>
  cases hb : b64Value b with
  | none => simp [ha, hb] at h
  | some vb =>
  rw [ha, hb] at h
  dsimp only at h
  by_cases hc : c = 0x3d
  · rw [if_pos hc] at h
    split at h
    · next hlast =>
        refine ⟨[a, b], 2, by rw [hc, hlast.2]; rfl, le_rfl, ?_, fun hno => ?_⟩
        · simp [hmem ha, hmem hb]
        · exact absurd hlast.1 (by simp [hno])
    · cases h
  · rw [if_neg hc] at h
    cases hvc : b64Value c with
    | none => simp [hvc] at h
    | some vc =>
    rw [hvc] at h
    dsimp only at h
    by_cases hd : d = 0x3d
    · rw [if_pos hd] at h
      split at h
      · next hlast =>
          refine ⟨[a, b, c], 1, by rw [hd]; rfl, by decide, ?_, fun hno => ?_⟩
          · simp [hmem ha, hmem hb, hmem hvc]
          · exact absurd hlast (by simp [hno])
      · cases h
    · rw [if_neg hd] at h
      cases hvd : b64Value d with
      | none => simp [hvd] at h
      | some vd =>
          refine ⟨[a, b, c, d], 0, by simp, by decide, ?_, fun _ => rfl⟩
          simp [hmem ha, hmem hb, hmem hvc, hmem hvd]

/-- **What the decoder takes**: whole groups, padded at the end only. -/
theorem padded_of_decodeGroups {text bytes : List UInt8} (h : decodeGroups text = some bytes) :
    Padded text := by
  refine ⟨length_of_decodeGroups h, ?_⟩
  induction text using decodeGroups.induct generalizing bytes with
  | case1 => exact ⟨[], 0, rfl, by decide, by simp⟩
  | case2 a b c d rest bytes' more hmore hbytes ih =>
      obtain ⟨body, pad, hrest, hpad, hbody⟩ := ih hmore
      obtain ⟨first, pad', hfirst, hpad', hchars, hlast⟩ := padded_of_decodeGroup hbytes
      have hsplit : a :: b :: c :: d :: rest = [a, b, c, d] ++ rest := rfl
      cases hempty : rest.isEmpty with
      | true =>
          have hnil : rest = [] := List.isEmpty_iff.mp hempty
          exact ⟨first, pad', by rw [hsplit, hfirst, hnil, List.append_nil], hpad', hchars⟩
      | false =>
          rw [hlast hempty, List.replicate_zero, List.append_nil] at hfirst
          refine ⟨first ++ body, pad, by rw [hsplit, hfirst, hrest, List.append_assoc], hpad, ?_⟩
          intro x hx
          exact (List.mem_append.mp hx).elim (hchars x) (hbody x)
  | case3 a b c d rest hno _ =>
      rw [decodeGroups_cons] at h
      obtain ⟨bytes, hbytes, h⟩ := Option.bind_eq_some_iff.mp h
      obtain ⟨more, hmore, -⟩ := Option.map_eq_some_iff.mp h
      exact (hno bytes more hbytes hmore).elim
  | case4 text hne hshort =>
      rw [decodeGroups.eq_3 _ hne hshort] at h
      cases h

/-! ## The claim -/

/-- A `size_t` below 2^31 is the same number as an `int`. -/
theorem asInt_of_lt {n : ℕ} (hn : n < 2 ^ 31) : asInt n = n := by
  rw [asInt, Nat.mod_eq_of_lt (by omega), if_pos hn]

/-- **Numbers and base64 are read exactly or not at all.** -/
theorem numbersAndBase64_exact :
    (∀ (js : List UInt8) (toks : List JsonTok) (idx : Option ℕ) (v : ℕ),
      jsonGetU64 js toks idx = some v ↔ IsNumber js toks idx v) ∧
    (∀ (b : List UInt8) (outLen : ℕ) (out : ℕ → UInt8),
      if b.length ≤ outLen then
        base64DecodeInto (base64Encode b) outLen out
          = (asInt b.length, overlay out 0 b.length (b.getD · 0))
      else (base64DecodeInto (base64Encode b) outLen out).1 = -1) ∧
    (∀ (text : List UInt8) (outLen : ℕ) (out : ℕ → UInt8),
      0 ≤ (base64DecodeInto text outLen out).1 → Padded text) ∧
    ∀ (text : List UInt8) (outLen : ℕ) (out : ℕ → UInt8), ∀ i ≥ outLen,
      (base64DecodeInto text outLen out).2 i = out i := by
  refine ⟨fun js toks idx v => jsonGetU64_eq_some, ?_, ?_, ?_⟩
  · intro b outLen out
    have hrun := base64DecodeInto_eq (base64Encode b) outLen out
    rw [base64Decode, decodeGroups_encode] at hrun
    dsimp only at hrun
    by_cases hroom : b.length ≤ outLen
    · rw [if_neg (by omega)] at hrun
      rw [if_pos hroom]
      exact hrun
    · rw [if_pos (by omega)] at hrun
      obtain ⟨buf, hbuf, -⟩ := hrun
      rw [if_neg hroom, hbuf]
  · intro text outLen out hret
    have hrun := base64DecodeInto_eq text outLen out
    cases hdec : base64Decode text outLen with
    | none =>
        rw [hdec] at hrun
        obtain ⟨buf, hbuf, -⟩ := hrun
        rw [hbuf] at hret
        exact absurd hret (show ¬ (0 : ℤ) ≤ -1 by decide)
    | some bytes =>
        unfold base64Decode at hdec
        cases hgroups : decodeGroups text with
        | none => rw [hgroups] at hdec; cases hdec
        | some bytes' => exact padded_of_decodeGroups hgroups
  · intro text outLen out i hi
    have hrun := base64DecodeInto_eq text outLen out
    cases hdec : base64Decode text outLen with
    | none =>
        rw [hdec] at hrun
        obtain ⟨buf, hbuf, hframe⟩ := hrun
        rw [hbuf]
        exact hframe i hi
    | some bytes =>
        rw [hdec] at hrun
        rw [hrun]
        unfold base64Decode at hdec
        cases hgroups : decodeGroups text with
        | none => rw [hgroups] at hdec; cases hdec
        | some bytes' =>
            rw [hgroups] at hdec
            dsimp only at hdec
            split at hdec
            · cases hdec
            · next hfits =>
                cases hdec
                dsimp only
                rw [overlay_apply, if_neg (by omega)]

/-- Four bytes are eight characters, and come back into a buffer of four. -/
theorem numbersAndBase64_exact_four :
    base64DecodeInto (base64Encode [222, 173, 190, 239]) 4 (fun _ => 7)
      = (4, overlay (fun _ => 7) 0 4 (List.getD [222, 173, 190, 239] · 0)) ∧
      Padded (base64Encode [222, 173, 190, 239]) :=
  ⟨(numbersAndBase64_exact.2.1 [222, 173, 190, 239] 4 _).trans
      (by rw [asInt_of_lt (by decide)]; rfl),
    numbersAndBase64_exact.2.2.1 _ 4 (fun _ => 7) (by decide)⟩

end Luks
