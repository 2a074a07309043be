import OpenExt4.Crypto.Medium
import Mathlib.Tactic.Tauto

set_option autoImplicit false

/-! # The JSON reader

`json_parse` cuts a document into tokens; the walking functions find their way from token to token
by the bytes that each one spans. An index of `-1` is `none`. -/

namespace Luks

/-! ## Tokenising -/

inductive JsonType where
  | undefined
  | object
  | array
  | string
  | primitive
  deriving DecidableEq, Repr

/-- `json_tok`: the type of a value and the bytes it spans, quotes excluded. -/
structure JsonTok where
  type : JsonType
  start : ℕ
  /-- one past the last byte; `0` until a container is closed -/
  stop : ℕ
  deriving DecidableEq, Repr

def jsonMaxDepth : ℕ := 32

/-- The tokens so far, and the containers that are open, the innermost first. -/
structure JsonState where
  tokens : List JsonTok
  stack : List ℕ

/-- `alloc_tok`, with the token filled in. -/
def allocTok (max : ℕ) (t : JsonTok) (s : JsonState) : Except Errno JsonState :=
  if max ≤ s.tokens.length then .error .ENOSPC
  else .ok { s with tokens := s.tokens ++ [t] }

/-- How many characters of a string are left before its closing quote. -/
def stringLen : List UInt8 → Option ℕ
  | [] => none
  | c :: rest =>
    if c = 0x22 then some 0
    else if c = 0x5c then
      -- skip the character after a backslash
      match rest with
      | [] => none
      | _ :: rest => (stringLen rest).map (· + 2)
    else (stringLen rest).map (· + 1)

/-- The characters that end a primitive: blanks, a comma, a colon and closing brackets. -/
def endsPrimitive (c : UInt8) : Bool :=
  c = 0x09 ∨ c = 0x0d ∨ c = 0x0a ∨ c = 0x20 ∨ c = 0x2c ∨ c = 0x5d ∨ c = 0x7d ∨ c = 0x3a

/-- How many characters a primitive has; none of them may be outside printable ASCII. -/
def primitiveLen : List UInt8 → Option ℕ
  | [] => some 0
  | c :: rest =>
    if endsPrimitive c then some 0
    else if c < 32 ∨ 127 ≤ c then none
    else (primitiveLen rest).map (· + 1)

/-- One turn of the loop of `json_parse`, at position `i` with `rest` behind the character `c`: the
    state after it, and how many characters of `rest` it took. -/
def jsonTurn (max i : ℕ) (c : UInt8) (rest : List UInt8) (s : JsonState) :
    Except Errno (JsonState × ℕ) :=
  if c = 0x7b ∨ c = 0x5b then
    match allocTok max ⟨if c = 0x7b then .object else .array, i, 0⟩ s with
    | .error e => .error e
    | .ok s =>
      if jsonMaxDepth ≤ s.stack.length then .error .E2BIG
      else .ok ({ s with stack := (s.tokens.length - 1) :: s.stack }, 0)
  else if c = 0x7d ∨ c = 0x5d then
    match s.stack with
    | [] => .error .EINVAL
    | top :: stack =>
      match s.tokens[top]? with
      | none => .error .EINVAL
      | some t =>
        if t.type ≠ (if c = 0x7d then JsonType.object else JsonType.array) then .error .EINVAL
        else .ok (⟨s.tokens.set top { t with stop := i + 1 }, stack⟩, 0)
  else if c = 0x22 then
    match stringLen rest with
    | none => .error .EINVAL
    | some n =>
      match allocTok max ⟨.string, i + 1, i + 1 + n⟩ s with
      | .error e => .error e
      | .ok s => .ok (s, n + 1)
  else if c = 0x09 ∨ c = 0x0d ∨ c = 0x0a ∨ c = 0x20 ∨ c = 0x3a ∨ c = 0x2c then .ok (s, 0)
  else
    match primitiveLen (c :: rest) with
    | none => .error .EINVAL
    | some n =>
      match allocTok max ⟨.primitive, i, i + n⟩ s with
      | .error e => .error e
      -- the structural character is re-read by the loop
      | .ok s => .ok (s, n - 1)

/-- The loop of `json_parse` from position `i` on; each turn takes at least one character. -/
def jsonLoop (max : ℕ) : ℕ → ℕ → List UInt8 → JsonState → Except Errno JsonState
  | 0, _, _, s => .ok s
  | _ + 1, _, [], s => .ok s
  | fuel + 1, i, c :: rest, s =>
    match jsonTurn max i c rest s with
    | .error e => .error e
    | .ok (s, n) => jsonLoop max fuel (i + 1 + n) (rest.drop n) s

/-- `json_parse`: the tokens of a document. -/
def jsonParse (js : List UInt8) (max : ℕ) : Except Errno (List JsonTok) :=
  if max = 0 then .error .EINVAL
  else
    match jsonLoop max js.length 0 js ⟨[], []⟩ with
    | .error e => .error e
    | .ok s => if s.stack ≠ [] then .error .EINVAL else .ok s.tokens

/-! ## Walking -/

/-- The bytes that a token spans. -/
def jsonText (js : List UInt8) (t : JsonTok) : List UInt8 := (js.drop t.start).take (t.stop - t.start)

/-- The token at an index that may be `-1`. -/
def jsonAt (toks : List JsonTok) (idx : Option ℕ) : Option JsonTok := idx.bind (toks[·]?)

/-- `json_skip`: the index just past the subtree at `idx`. -/
def jsonSkip (toks : List JsonTok) (idx : Option ℕ) : ℕ :=
  match idx, jsonAt toks idx with
  | some i, some t => i + 1 + ((toks.drop (i + 1)).takeWhile (·.start < t.stop)).length
  | _, _ => toks.length

/-- `json_equals`. -/
def jsonEquals (js : List UInt8) (toks : List JsonTok) (idx : Option ℕ) (s : List UInt8) : Bool :=
  match jsonAt toks idx with
  | none => false
  | some t => jsonText js t = s

/-- The members of a container that ends at `limit`, from token `i` on: where each key is and where
    its value is. -/
def membersFrom (toks : List JsonTok) (limit : ℕ) : ℕ → ℕ → List (ℕ × ℕ)
  | 0, _ => []
  | fuel + 1, i =>
    match toks[i]? with
    | none => []
    | some k =>
      if k.start < limit then
        let v := jsonSkip toks (some i)
        match toks[v]? with
        | none => []
        | some u =>
          if u.start < limit then (i, v) :: membersFrom toks limit fuel (jsonSkip toks (some v))
          else []
      else []

/-- The members of the object at `obj`, none if it is not one. -/
def members (toks : List JsonTok) (obj : Option ℕ) : List (ℕ × ℕ) :=
  match obj, jsonAt toks obj with
  | some i, some t => if t.type = .object then membersFrom toks t.stop toks.length (i + 1) else []
  | _, _ => []

/-- `json_object_get`: the value of the first member with the key. -/
def jsonObjectGet (js : List UInt8) (toks : List JsonTok) (obj : Option ℕ) (key : List UInt8) :
    Option ℕ :=
  ((members toks obj).find? fun m =>
    (jsonAt toks (some m.1)).any (·.type = .string) && jsonEquals js toks (some m.1) key).map (·.2)

/-- `json_object_count`. -/
def jsonObjectCount (toks : List JsonTok) (obj : Option ℕ) : ℕ := (members toks obj).length

/-- The loop of `json_object_key_at`: keys and values are stepped over wholesale. -/
def keyFrom (toks : List JsonTok) (limit : ℕ) : ℕ → ℕ → Option ℕ
  | n, i =>
    match toks[i]? with
    | none => none
    | some t =>
      if t.start < limit then
        match n with
        | 0 => some i
        | n + 1 => keyFrom toks limit n (jsonSkip toks (some (jsonSkip toks (some i))))
      else none

/-- `json_object_key_at`: the index of the `n`-th key. -/
def jsonObjectKeyAt (toks : List JsonTok) (obj : Option ℕ) (n : ℕ) : Option ℕ :=
  match obj, jsonAt toks obj with
  | some i, some t => if t.type = .object then keyFrom toks t.stop n (i + 1) else none
  | _, _ => none

/-- The loop of `json_array_get`. -/
def elementFrom (toks : List JsonTok) (limit : ℕ) : ℕ → ℕ → Option ℕ
  | n, i =>
    match toks[i]? with
    | none => none
    | some t =>
      if t.start < limit then
        match n with
        | 0 => some i
        | n + 1 => elementFrom toks limit n (jsonSkip toks (some i))
      else none

/-- `json_array_get`: element `n` of an array. -/
def jsonArrayGet (toks : List JsonTok) (arr : Option ℕ) (n : ℕ) : Option ℕ :=
  match arr, jsonAt toks arr with
  | some i, some t => if t.type = .array then elementFrom toks t.stop n (i + 1) else none
  | _, _ => none

/-- `json_copy` into a buffer of `outLen` bytes. -/
def jsonCopy (js : List UInt8) (toks : List JsonTok) (idx : Option ℕ) (outLen : ℕ) :
    Option (List UInt8) :=
  match jsonAt toks idx with
  | none => none
  | some t => if outLen ≤ t.stop - t.start then none else some (jsonText js t)

/-- The loop of `json_get_u64` over the digits. -/
def readDigits : List UInt8 → ℕ → Option ℕ
  | [], v => some v
  | c :: rest, v =>
    if c < 0x30 ∨ 0x39 < c then none
    else if v > (2 ^ 64 - 1 - (c - 0x30).toNat) / 10 then none
    else readDigits rest (v * 10 + (c - 0x30).toNat)

/-- `json_get_u64`. -/
def jsonGetU64 (js : List UInt8) (toks : List JsonTok) (idx : Option ℕ) : Option ℕ :=
  match jsonAt toks idx with
  | none => none
  | some t =>
    if t.type ≠ .primitive ∧ t.type ≠ .string then none
    else
      let n := t.stop - t.start
      if n = 0 ∨ 20 < n then none else readDigits (jsonText js t) 0

/-! ## Numbers -/

/-- The number that decimal digits stand for, read on from `v`. -/
def digitsFrom (v : ℕ) (digits : List UInt8) : ℕ :=
  digits.foldl (fun v c => v * 10 + (c - 0x30).toNat) v

/-- A character that is a decimal digit. -/
def IsDigit (c : UInt8) : Prop := 0x30 ≤ c ∧ c ≤ 0x39

theorem le_digitsFrom (v : ℕ) (digits : List UInt8) : v ≤ digitsFrom v digits := by
  induction digits generalizing v with
  | nil => exact le_rfl
  | cons c rest ih =>
      calc v ≤ v * 10 + (c - 0x30).toNat := by omega
        _ ≤ digitsFrom v (c :: rest) := ih _

/-- The digits are read exactly, and only as far as 64 bits hold them. -/
theorem readDigits_eq_some {digits : List UInt8} {v w : ℕ} (hv : v < 2 ^ 64) :
    readDigits digits v = some w ↔
      (∀ c ∈ digits, IsDigit c) ∧ digitsFrom v digits = w ∧ w < 2 ^ 64 := by
  induction digits generalizing v with
  | nil =>
      simp only [readDigits, Option.some.injEq, List.not_mem_nil, false_imp_iff, implies_true,
        true_and, digitsFrom, List.foldl_nil]
      exact ⟨fun h => ⟨h, h ▸ hv⟩, fun h => h.1⟩
  | cons c rest ih =>
      rw [readDigits, List.forall_mem_cons]
      by_cases hdigit : c < 0x30 ∨ 0x39 < c
      · rw [if_pos hdigit]
        have hno : ¬ IsDigit c := fun h => hdigit.elim (UInt8.not_lt.mpr h.1) (UInt8.not_lt.mpr h.2)
        simp [hno]
      · rw [if_neg hdigit]
        rw [not_or, UInt8.not_lt, UInt8.not_lt] at hdigit
        have hsmall : (c - 0x30).toNat ≤ 9 := by
          have hle : c.toNat ≤ 57 := UInt8.le_iff_toNat_le.mp hdigit.2
          rw [UInt8.toNat_sub_of_le _ _ hdigit.1]
          show c.toNat - 48 ≤ 9
          omega
        have hwrap : v > (2 ^ 64 - 1 - (c - 0x30).toNat) / 10 ↔
            2 ^ 64 ≤ v * 10 + (c - 0x30).toNat := by
          rw [gt_iff_lt, Nat.div_lt_iff_lt_mul (by decide)]
          omega
        by_cases hbig : v > (2 ^ 64 - 1 - (c - 0x30).toNat) / 10
        · rw [if_pos hbig]
          have hle := le_digitsFrom (v * 10 + (c - 0x30).toNat) rest
          have hover := hwrap.mp hbig
          have hfrom : digitsFrom v (c :: rest) = digitsFrom (v * 10 + (c - 0x30).toNat) rest := rfl
          constructor
          · intro h
            cases h
          · rintro ⟨-, heq, hlt⟩
            rw [hfrom] at heq
            omega
        · rw [if_neg hbig, ih (not_le.mp (fun h => hbig (hwrap.mpr h)))]
          have hok : IsDigit c := hdigit
          simp only [hok, true_and]
          rfl

/-- The token at `idx` is the number `v` in decimal: a primitive or a string of at most twenty
    digits. -/
structure IsNumber (js : List UInt8) (toks : List JsonTok) (idx : Option ℕ) (v : ℕ) : Prop where
  digits : ∃ t, jsonAt toks idx = some t ∧ (t.type = .primitive ∨ t.type = .string) ∧
    t.start < t.stop ∧ t.stop ≤ t.start + 20 ∧ (∀ c ∈ jsonText js t, IsDigit c) ∧
    digitsFrom 0 (jsonText js t) = v
  small : v < 2 ^ 64

/-- **A number is read exactly or not at all**: nothing is truncated and nothing wraps. -/
theorem jsonGetU64_eq_some {js : List UInt8} {toks : List JsonTok} {idx : Option ℕ} {v : ℕ} :
    jsonGetU64 js toks idx = some v ↔ IsNumber js toks idx v := by
  unfold jsonGetU64
  cases ht : jsonAt toks idx with
  | none =>
      refine ⟨fun h => (by cases h), fun h => ?_⟩
      obtain ⟨t, hsome, -⟩ := h.digits
      rw [ht] at hsome
      cases hsome
  | some t =>
      dsimp only
      constructor
      · intro h
        split_ifs at h with htype hlen
        obtain ⟨hdigits, hvalue, hsmall⟩ := (readDigits_eq_some (by decide)).mp h
        have hnumber : t.type = .primitive ∨ t.type = .string := by tauto
        exact ⟨⟨t, ht, hnumber, by omega, by omega, hdigits, hvalue⟩, hsmall⟩
      · rintro ⟨⟨u, hu, htype, hlo, hhi, hdigits, hvalue⟩, hsmall⟩
        rw [ht] at hu
        cases hu
        have hno : ¬ (t.type ≠ .primitive ∧ t.type ≠ .string) := by tauto
        rw [if_neg hno, if_neg (by omega)]
        exact (readDigits_eq_some (by decide)).mpr ⟨hdigits, hvalue, hsmall⟩

/-! ## Base64 -/

def b64Value (c : UInt8) : Option ℕ :=
  if 0x41 ≤ c ∧ c ≤ 0x5a then some (c.toNat - 0x41)
  else if 0x61 ≤ c ∧ c ≤ 0x7a then some (c.toNat - 0x61 + 26)
  else if 0x30 ≤ c ∧ c ≤ 0x39 then some (c.toNat - 0x30 + 52)
  else if c = 0x2b then some 62
  else if c = 0x2f then some 63
  else none

/-- The bytes of a group of four characters; padding is legal in the last group only. -/
def decodeGroup (last : Bool) (a b c d : UInt8) : Option (List UInt8) :=
  match b64Value a, b64Value b with
  | some a, some b =>
    if c = 0x3d then
      if last ∧ d = 0x3d then some [UInt8.ofNat (a * 4 + b / 16)] else none
    else
      match b64Value c with
      | none => none
      | some c =>
        if d = 0x3d then
          if last then some [UInt8.ofNat (a * 4 + b / 16), UInt8.ofNat (b * 16 + c / 4)] else none
        else
          match b64Value d with
          | none => none
          | some d =>
            some [UInt8.ofNat (a * 4 + b / 16), UInt8.ofNat (b * 16 + c / 4),
              UInt8.ofNat (c * 64 + d)]
  | _, _ => none

/-- The groups of `base64_decode`; `none` also where a length is no multiple of four. -/
def decodeGroups : List UInt8 → Option (List UInt8)
  | [] => some []
  | a :: b :: c :: d :: rest =>
    match decodeGroup rest.isEmpty a b c d, decodeGroups rest with
    | some bytes, some more => some (bytes ++ more)
    | _, _ => none
  | _ => none

/-- `base64_decode` into a buffer of `outLen` bytes. -/
def base64Decode (text : List UInt8) (outLen : ℕ) : Option (List UInt8) :=
  match decodeGroups text with
  | none => none
  | some bytes => if outLen < bytes.length then none else some bytes

end Luks
