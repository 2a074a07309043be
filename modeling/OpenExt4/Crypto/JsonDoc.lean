import OpenExt4.Crypto.Json

set_option autoImplicit false

/-! # JSON documents

The grammar of JSON as a syntax tree that keeps the blanks, the text of a tree, and where in the
text and among the tokens its values are. Strings are sequences of bytes: what the grammar asks of
the encoding of a character is left out, so that there are more documents here, not fewer. -/

namespace Luks.JsonDoc

/-! ## Blanks, numbers and strings -/

/-- A blank character. -/
def isBlank (c : UInt8) : Prop := c = 0x09 ∨ c = 0x0a ∨ c = 0x0d ∨ c = 0x20

instance (c : UInt8) : Decidable (IsDigit c) := inferInstanceAs (Decidable (_ ∧ _))

instance (c : UInt8) : Decidable (isBlank c) := inferInstanceAs (Decidable (_ ∨ _))

structure Blank where
  text : List UInt8
  blank : ∀ c ∈ text, isBlank c

structure Digits where
  text : List UInt8
  nonempty : text ≠ []
  digits : ∀ c ∈ text, IsDigit c

/-- The exponent of a number: whether its letter is a capital, its sign if it has one (whether it is
    a minus), and its digits. -/
structure Exponent where
  capital : Bool
  sign : Option Bool
  digits : Digits

def Exponent.text (e : Exponent) : List UInt8 :=
  (if e.capital then 0x45 else 0x65) ::
    ((match e.sign with
      | none => []
      | some minus => [if minus then 0x2d else 0x2b]) ++ e.digits.text)

structure Number where
  minus : Bool
  int : Digits
  noLeadingZero : int.text.head? = some 0x30 → int.text = [0x30]
  frac : Option Digits
  exp : Option Exponent

def Number.text (n : Number) : List UInt8 :=
  (if n.minus then [0x2d] else []) ++ n.int.text
    ++ (match n.frac with
      | none => []
      | some d => 0x2e :: d.text)
    ++ (match n.exp with
      | none => []
      | some e => e.text)

/-- The values that are neither strings nor containers. -/
inductive Primitive where
  | true
  | false
  | null
  | number (n : Number)

def Primitive.text : Primitive → List UInt8
  | .true => [0x74, 0x72, 0x75, 0x65]
  | .false => [0x66, 0x61, 0x6c, 0x73, 0x65]
  | .null => [0x6e, 0x75, 0x6c, 0x6c]
  | .number n => n.text

/-- A character that stands for itself in a string. -/
def isPlain (c : UInt8) : Prop := 0x20 ≤ c ∧ c ≠ 0x22 ∧ c ≠ 0x5c

def isHexDigit (c : UInt8) : Prop := IsDigit c ∨ 0x41 ≤ c ∧ c ≤ 0x46 ∨ 0x61 ≤ c ∧ c ≤ 0x66

/-- What a string is made of: characters, and the two kinds of escapes. -/
inductive StringItem where
  | plain (c : UInt8) (h : isPlain c)
  | escape (c : UInt8) (h : c ∈ [0x22, 0x5c, 0x2f, 0x62, 0x66, 0x6e, 0x72, 0x74])
  | unicode (a b c d : UInt8) (h : ∀ x ∈ [a, b, c, d], isHexDigit x)

def StringItem.text : StringItem → List UInt8
  | .plain c _ => [c]
  | .escape c _ => [0x5c, c]
  | .unicode a b c d _ => [0x5c, 0x75, a, b, c, d]

/-- The key of a member; it has no escapes. -/
structure Key where
  text : List UInt8
  plain : ∀ c ∈ text, isPlain c

/-! ## Values -/

mutual

inductive Value where
  | primitive (t : Primitive)
  | string (items : List StringItem)
  | array (lead : Blank) (elements : Elements)
  | object (lead : Blank) (members : Members)

/-- The elements of an array, with the blanks around them. -/
inductive Elements where
  | nil
  | cons (before : Blank) (value : Value) (after : Blank) (rest : Elements)

/-- The members of an object, with the blanks around them and around their colon. -/
inductive Members where
  | nil
  | cons (before : Blank) (key : Key) (keyAfter valueBefore : Blank) (value : Value) (after : Blank)
      (rest : Members)

end

/-- What stands before an element or a member: a comma, unless it is the first, and blanks. -/
def gap (first : Bool) (before : Blank) : List UInt8 := (if first then [] else [0x2c]) ++ before.text

/-- What stands between a key and its value. -/
def colon (keyAfter valueBefore : Blank) : List UInt8 :=
  keyAfter.text ++ 0x3a :: valueBefore.text

def quoted (body : List UInt8) : List UInt8 := 0x22 :: (body ++ [0x22])

mutual

def Value.text : Value → List UInt8
  | .primitive t => t.text
  | .string items => quoted (items.flatMap StringItem.text)
  | .array lead elements => 0x5b :: (lead.text ++ (elements.text true ++ [0x5d]))
  | .object lead members => 0x7b :: (lead.text ++ (members.text true ++ [0x7d]))

def Elements.text (first : Bool) : Elements → List UInt8
  | .nil => []
  | .cons before value after rest =>
      gap first before ++ (value.text ++ (after.text ++ rest.text false))

def Members.text (first : Bool) : Members → List UInt8
  | .nil => []
  | .cons before key keyAfter valueBefore value after rest =>
      gap first before ++ (quoted key.text ++ (colon keyAfter valueBefore ++
        (value.text ++ (after.text ++ rest.text false))))

end

/-- The whole document. -/
structure Document where
  before : Blank
  value : Value
  after : Blank

def Document.text (d : Document) : List UInt8 := d.before.text ++ (d.value.text ++ d.after.text)

/-! ## Tokens -/

mutual

/-- The tokens of a value that stands at position `p`. -/
def Value.tokens (p : ℕ) : Value → List JsonTok
  | .primitive t => [⟨.primitive, p, p + t.text.length⟩]
  | .string items => [⟨.string, p + 1, p + 1 + (items.flatMap StringItem.text).length⟩]
  | .array lead elements =>
      ⟨.array, p, p + (Value.array lead elements).text.length⟩ ::
        elements.tokens true (p + 1 + lead.text.length)
  | .object lead members =>
      ⟨.object, p, p + (Value.object lead members).text.length⟩ ::
        members.tokens true (p + 1 + lead.text.length)

def Elements.tokens (first : Bool) (p : ℕ) : Elements → List JsonTok
  | .nil => []
  | .cons before value after rest =>
      value.tokens (p + (gap first before).length) ++
        rest.tokens false
          (p + (gap first before).length + value.text.length + after.text.length)

def Members.tokens (first : Bool) (p : ℕ) : Members → List JsonTok
  | .nil => []
  | .cons before key keyAfter valueBefore value after rest =>
      let q := p + (gap first before).length
      let r := q + (quoted key.text).length + (colon keyAfter valueBefore).length
      ⟨.string, q + 1, q + 1 + key.text.length⟩ ::
        (value.tokens r ++ rest.tokens false (r + value.text.length + after.text.length))

end

mutual

/-- How many tokens a value has. -/
def Value.size : Value → ℕ
  | .primitive _ => 1
  | .string _ => 1
  | .array _ elements => elements.size + 1
  | .object _ members => members.size + 1

def Elements.size : Elements → ℕ
  | .nil => 0
  | .cons _ value _ rest => value.size + rest.size

def Members.size : Members → ℕ
  | .nil => 0
  | .cons _ _ _ _ value _ rest => value.size + rest.size + 1

end

mutual

/-- How deep the containers of a value are nested. -/
def Value.depth : Value → ℕ
  | .primitive _ => 0
  | .string _ => 0
  | .array _ elements => elements.depth + 1
  | .object _ members => members.depth + 1

def Elements.depth : Elements → ℕ
  | .nil => 0
  | .cons _ value _ rest => max value.depth rest.depth

def Members.depth : Members → ℕ
  | .nil => 0
  | .cons _ _ _ _ value _ rest => max value.depth rest.depth

end

/-! ## Places -/

/-- A value with its token and its position in the text. -/
structure Place where
  index : ℕ
  pos : ℕ
  value : Value

/-- The elements of an array from token `k` and position `p` on. -/
def Elements.places (first : Bool) (k p : ℕ) : Elements → List Place
  | .nil => []
  | .cons before value after rest =>
      ⟨k, p + (gap first before).length, value⟩ ::
        rest.places false (k + value.size)
          (p + (gap first before).length + value.text.length + after.text.length)

/-- A member: its key, the token of the key, and the value. -/
structure MemberPlace where
  key : List UInt8
  keyIndex : ℕ
  place : Place

def Members.places (first : Bool) (k p : ℕ) : Members → List MemberPlace
  | .nil => []
  | .cons before key keyAfter valueBefore value after rest =>
      let q := p + (gap first before).length
      let r := q + (quoted key.text).length + (colon keyAfter valueBefore).length
      ⟨key.text, k, ⟨k + 1, r, value⟩⟩ ::
        rest.places false (k + 1 + value.size) (r + value.text.length + after.text.length)

/-- The elements of the value at a place. -/
def Place.elements (pl : Place) : List Place :=
  match pl.value with
  | .array lead elements => elements.places true (pl.index + 1) (pl.pos + 1 + lead.text.length)
  | _ => []

/-- The members of the value at a place. -/
def Place.members (pl : Place) : List MemberPlace :=
  match pl.value with
  | .object lead members => members.places true (pl.index + 1) (pl.pos + 1 + lead.text.length)
  | _ => []

/-- The places of a document: its value, and what stands in a container at a place of it. -/
inductive Document.Holds (d : Document) : Place → Prop
  | root : d.Holds ⟨0, d.before.text.length, d.value⟩
  | element {pl u : Place} : d.Holds pl → u ∈ pl.elements → d.Holds u
  | member {pl : Place} {m : MemberPlace} : d.Holds pl → m ∈ pl.members → d.Holds m.place

end Luks.JsonDoc
