import OpenExt4.Crypto.JsonDoc

set_option autoImplicit false

/-! # The tokens of a document

`json_parse` on the text of a document: the tokens it makes are those of the syntax tree, within the
limits on their number and on the depth. -/

namespace Luks.JsonDoc

/-! ## The loop without its fuel -/

/-- More fuel than there are characters changes nothing. -/
theorem jsonLoop_settled {max i fuel fuel' : ℕ} {rest : List UInt8} {s : JsonState}
    (h : rest.length ≤ fuel) (h' : rest.length ≤ fuel') :
    jsonLoop max fuel i rest s = jsonLoop max fuel' i rest s := by
  induction fuel generalizing fuel' i rest s with
  | zero =>
      obtain rfl : rest = [] := List.length_eq_zero_iff.mp (Nat.le_zero.mp h)
      cases fuel' <;> rfl
  | succ fuel ih =>
      cases rest with
      | nil => cases fuel' <;> rfl
      | cons c rest =>
          cases fuel' with
          | zero => simp at h'
          | succ fuel' =>
              simp only [jsonLoop]
              cases hturn : jsonTurn max i c rest s with
              | error e => rfl
              | ok r =>
                  have hdrop : (rest.drop r.2).length ≤ rest.length := by simp
                  simp only [List.length_cons] at h h'
                  exact ih (by omega) (by omega)

/-- The loop of `json_parse` on what is left of the text at position `i`. -/
def readOn (max i : ℕ) (rest : List UInt8) (s : JsonState) : Except Errno JsonState :=
  jsonLoop max rest.length i rest s

@[simp] theorem readOn_nil (max i : ℕ) (s : JsonState) : readOn max i [] s = .ok s := rfl

theorem readOn_cons (max i : ℕ) (c : UInt8) (rest : List UInt8) (s : JsonState) :
    readOn max i (c :: rest) s =
      match jsonTurn max i c rest s with
      | .error e => .error e
      | .ok (s, n) => readOn max (i + 1 + n) (rest.drop n) s := by
  unfold readOn
  rw [List.length_cons, jsonLoop]
  cases hturn : jsonTurn max i c rest s with
  | error e => rfl
  | ok r => exact jsonLoop_settled (by simp) le_rfl

theorem readOn_of_turn {max i n : ℕ} {c : UInt8} {rest : List UInt8} {s s' : JsonState}
    (h : jsonTurn max i c rest s = .ok (s', n)) :
    readOn max i (c :: rest) s = readOn max (i + 1 + n) (rest.drop n) s' := by
  rw [readOn_cons, h]

/-! ## What is passed over -/

/-- A character the loop passes over. -/
def isSkipped (c : UInt8) : Prop := isBlank c ∨ c = 0x2c ∨ c = 0x3a

theorem readOn_skip {max : ℕ} {l : List UInt8} (hl : ∀ c ∈ l, isSkipped c) (i : ℕ)
    (rest : List UInt8) (s : JsonState) :
    readOn max i (l ++ rest) s = readOn max (i + l.length) rest s := by
  induction l generalizing i with
  | nil => rfl
  | cons c l ih =>
      have hturn : jsonTurn max i c (l ++ rest) s = .ok (s, 0) := by
        have hc := hl c List.mem_cons_self
        simp only [isSkipped, isBlank] at hc
        rcases hc with (rfl | rfl | rfl | rfl) | rfl | rfl <;> rfl
      rw [List.cons_append, readOn_of_turn hturn, List.drop_zero, List.length_cons,
        ih fun x hx => hl x (List.mem_cons_of_mem _ hx)]
      congr 1
      omega

theorem skipped_blank (w : Blank) : ∀ c ∈ w.text, isSkipped c := fun c hc => .inl (w.blank c hc)

theorem skipped_gap (first : Bool) (before : Blank) : ∀ c ∈ gap first before, isSkipped c := by
  intro c hc
  rcases List.mem_append.mp hc with hcomma | hblank
  · cases first with
    | true => exact absurd hcomma List.not_mem_nil
    | false => exact .inr (.inl (List.mem_singleton.mp hcomma))
  · exact skipped_blank before c hblank

theorem skipped_colon (keyAfter valueBefore : Blank) :
    ∀ c ∈ colon keyAfter valueBefore, isSkipped c := by
  intro c hc
  rcases List.mem_append.mp hc with hafter | hrest
  · exact skipped_blank keyAfter c hafter
  · rcases List.mem_cons.mp hrest with rfl | hbefore
    · exact .inr (.inr rfl)
    · exact skipped_blank valueBefore c hbefore

/-! ## Strings -/

theorem stringLen_quote (rest : List UInt8) : stringLen (0x22 :: rest) = some 0 := by
  rw [stringLen.eq_def]
  simp only [if_true]

theorem stringLen_plain {c : UInt8} (h : isPlain c) (rest : List UInt8) :
    stringLen (c :: rest) = (stringLen rest).map (· + 1) := by
  rw [stringLen.eq_def]
  simp only [h.2.1, h.2.2, if_false]

theorem isPlain_of_isHexDigit {c : UInt8} (h : isHexDigit c) : isPlain c := by
  simp only [isHexDigit, IsDigit, isPlain, UInt8.le_iff_toNat_le, ne_eq, ← UInt8.toNat_inj,
    UInt8.reduceToNat] at h ⊢
  omega

theorem stringLen_item (item : StringItem) (rest : List UInt8) :
    stringLen (item.text ++ rest) = (stringLen rest).map (· + item.text.length) := by
  cases item with
  | plain c h => exact stringLen_plain h rest
  | escape c h =>
      show stringLen (0x5c :: c :: rest) = _
      rw [stringLen]
      rfl
  | unicode a b c d h =>
      simp only [List.forall_mem_cons] at h
      obtain ⟨ha, hb, hc, hd, -⟩ := h
      show stringLen (0x5c :: 0x75 :: a :: b :: c :: d :: rest) = _
      rw [stringLen]
      simp only [stringLen_plain (isPlain_of_isHexDigit ha), stringLen_plain (isPlain_of_isHexDigit hb),
        stringLen_plain (isPlain_of_isHexDigit hc), stringLen_plain (isPlain_of_isHexDigit hd),
        Option.map_map]
      rfl

/-- Reading up to the closing quote. -/
theorem stringLen_items (items : List StringItem) (rest : List UInt8) :
    stringLen (items.flatMap StringItem.text ++ 0x22 :: rest)
      = some (items.flatMap StringItem.text).length := by
  induction items with
  | nil => exact stringLen_quote rest
  | cons item items ih =>
      rw [List.flatMap_cons, List.append_assoc, stringLen_item, ih, Option.map_some,
        List.length_append, Nat.add_comm]

theorem stringLen_key (key : Key) (rest : List UInt8) :
    stringLen (key.text ++ 0x22 :: rest) = some key.text.length := by
  obtain ⟨text, hplain⟩ := key
  induction text with
  | nil => exact stringLen_quote rest
  | cons c text ih =>
      rw [List.cons_append, stringLen_plain (hplain c List.mem_cons_self),
        ih fun x hx => hplain x (List.mem_cons_of_mem _ hx)]
      rfl

theorem readOn_quoted {max i : ℕ} {body rest : List UInt8} {s : JsonState}
    (hlen : stringLen (body ++ 0x22 :: rest) = some body.length) (hmax : s.tokens.length < max) :
    readOn max i (quoted body ++ rest) s =
      readOn max (i + (quoted body).length) rest
        { s with tokens := s.tokens ++ [⟨.string, i + 1, i + 1 + body.length⟩] } := by
  have htext : quoted body ++ rest = 0x22 :: (body ++ 0x22 :: rest) := by simp [quoted]
  have hturn : jsonTurn max i 0x22 (body ++ 0x22 :: rest) s = .ok
      ({ s with tokens := s.tokens ++ [⟨.string, i + 1, i + 1 + body.length⟩] },
        body.length + 1) := by
    rw [jsonTurn, if_neg (by decide), if_neg (by decide), if_pos rfl, hlen]
    simp only [allocTok, if_neg (not_le.mpr hmax)]
  have hdrop : (body ++ 0x22 :: rest).drop (body.length + 1) = rest := by
    rw [← List.drop_drop, List.drop_left]
    rfl
  rw [htext, readOn_of_turn hturn, hdrop]
  congr 1
  simp only [quoted, List.length_cons, List.length_append, List.length_nil]
  omega

/-! ## Primitives -/

/-- A character of a number or of a literal. -/
def inPrimitive (c : UInt8) : Prop :=
  IsDigit c ∨ c = 0x2b ∨ c = 0x2d ∨ c = 0x2e ∨ c = 0x45 ∨ 0x61 ≤ c ∧ c ≤ 0x7a

instance (c : UInt8) : Decidable (inPrimitive c) := inferInstanceAs (Decidable (_ ∨ _))

theorem endsPrimitive_of_inPrimitive {c : UInt8} (h : inPrimitive c) :
    endsPrimitive c = false ∧ ¬ (c < 32 ∨ 127 ≤ c) ∧ ¬ (c = 0x7b ∨ c = 0x5b) ∧ c ≠ 0x22 := by
  simp only [inPrimitive, IsDigit, endsPrimitive, decide_eq_false_iff_not, UInt8.le_iff_toNat_le,
    UInt8.lt_iff_toNat_lt, ne_eq, ← UInt8.toNat_inj, UInt8.reduceToNat] at h ⊢
  omega

theorem Digits.inPrimitive (d : Digits) : ∀ c ∈ d.text, inPrimitive c :=
  fun c hc => .inl (d.digits c hc)

theorem Exponent.inPrimitive (e : Exponent) : ∀ c ∈ e.text, JsonDoc.inPrimitive c := by
  obtain ⟨capital, sign, digits⟩ := e
  intro c hc
  rcases List.mem_cons.mp hc with rfl | hrest
  · cases capital
    · exact (by decide : JsonDoc.inPrimitive 0x65)
    · exact (by decide : JsonDoc.inPrimitive 0x45)
  · rcases List.mem_append.mp hrest with hsign | hdigits
    · cases sign with
      | none => exact absurd hsign List.not_mem_nil
      | some minus =>
          obtain rfl := List.mem_singleton.mp hsign
          cases minus <;> decide
    · exact digits.inPrimitive c hdigits

theorem Number.inPrimitive (n : Number) : ∀ c ∈ n.text, JsonDoc.inPrimitive c := by
  obtain ⟨minus, int, -, frac, exp⟩ := n
  intro c hc
  simp only [Number.text, List.mem_append] at hc
  rcases hc with ((hminus | hint) | hfrac) | hexp
  · cases minus with
    | false => exact absurd hminus List.not_mem_nil
    | true =>
        obtain rfl := List.mem_singleton.mp hminus
        decide
  · exact int.inPrimitive c hint
  · cases frac with
    | none => exact absurd hfrac List.not_mem_nil
    | some d =>
        rcases List.mem_cons.mp hfrac with rfl | hdigits
        · decide
        · exact d.inPrimitive c hdigits
  · cases exp with
    | none => exact absurd hexp List.not_mem_nil
    | some e => exact e.inPrimitive c hexp

theorem Primitive.inPrimitive (t : Primitive) : ∀ c ∈ t.text, JsonDoc.inPrimitive c := by
  cases t with
  | true =>
      intro c hc
      rcases (by simpa [Primitive.text] using hc) with rfl | rfl | rfl | rfl <;> decide
  | false =>
      intro c hc
      rcases (by simpa [Primitive.text] using hc) with rfl | rfl | rfl | rfl | rfl <;> decide
  | null =>
      intro c hc
      rcases (by simpa [Primitive.text] using hc) with rfl | rfl | rfl <;> decide
  | number n => exact n.inPrimitive

theorem Primitive.text_ne_nil (t : Primitive) : t.text ≠ [] := by
  cases t with
  | true => decide
  | false => decide
  | null => decide
  | number n => simp [Primitive.text, Number.text, n.int.nonempty]

/-- What may follow a value: nothing, or a character that ends a primitive. -/
def Delimited (rest : List UInt8) : Prop := ∀ c ∈ rest.head?, endsPrimitive c = true

theorem Delimited.nil : Delimited [] := by simp [Delimited]

theorem Delimited.cons {c : UInt8} {rest : List UInt8} (h : endsPrimitive c = true) :
    Delimited (c :: rest) := by simpa [Delimited] using h

theorem endsPrimitive_of_isBlank {c : UInt8} (h : isBlank c) : endsPrimitive c = true := by
  rcases h with rfl | rfl | rfl | rfl <;> rfl

theorem Delimited.blank (w : Blank) {rest : List UInt8} (h : Delimited rest) :
    Delimited (w.text ++ rest) := by
  obtain ⟨text, hblank⟩ := w
  cases text with
  | nil => exact h
  | cons c text => exact .cons (endsPrimitive_of_isBlank (hblank c List.mem_cons_self))

theorem primitiveLen_eq {text rest : List UInt8} (htext : ∀ c ∈ text, inPrimitive c)
    (hrest : Delimited rest) : primitiveLen (text ++ rest) = some text.length := by
  induction text with
  | nil =>
      cases rest with
      | nil => rfl
      | cons c rest =>
          have hc : endsPrimitive c = true := hrest c (by simp)
          rw [List.nil_append, primitiveLen, if_pos hc]
          rfl
  | cons c text ih =>
      obtain ⟨hends, hascii, -⟩ := endsPrimitive_of_inPrimitive (htext c List.mem_cons_self)
      rw [List.cons_append, primitiveLen, if_neg (by simp [hends]), if_neg hascii,
        ih fun x hx => htext x (List.mem_cons_of_mem _ hx)]
      rfl

theorem readOn_primitive {max i : ℕ} (t : Primitive) {rest : List UInt8} {s : JsonState}
    (hrest : Delimited rest) (hmax : s.tokens.length < max) :
    readOn max i (t.text ++ rest) s =
      readOn max (i + t.text.length) rest
        { s with tokens := s.tokens ++ [⟨.primitive, i, i + t.text.length⟩] } := by
  have hlen := primitiveLen_eq t.inPrimitive hrest
  obtain ⟨c, text, htext⟩ := List.exists_cons_of_ne_nil t.text_ne_nil
  have hc := t.inPrimitive c (by rw [htext]; exact List.mem_cons_self)
  obtain ⟨hends, -, hopen, hquote⟩ := endsPrimitive_of_inPrimitive hc
  rw [htext] at hlen ⊢
  have hturn : jsonTurn max i c (text ++ rest) s = .ok
      ({ s with tokens := s.tokens ++ [⟨.primitive, i, i + (c :: text).length⟩] },
        text.length) := by
    simp only [endsPrimitive, decide_eq_false_iff_not, not_or] at hends
    rw [jsonTurn, if_neg hopen, if_neg (by tauto), if_neg hquote, if_neg (by tauto),
      ← List.cons_append, hlen]
    simp only [allocTok, if_neg (not_le.mpr hmax)]
    rfl
  rw [List.cons_append, readOn_of_turn hturn, List.drop_left, List.length_cons]
  congr 1
  omega

/-! ## Containers -/

/-- The brackets of a container and the type of its token. -/
inductive Brackets : UInt8 → UInt8 → JsonType → Prop
  | object : Brackets 0x7b 0x7d .object
  | array : Brackets 0x5b 0x5d .array

theorem readOn_open {max i : ℕ} {o c : UInt8} {type : JsonType} {rest : List UInt8} {s : JsonState}
    (hbrackets : Brackets o c type) (hmax : s.tokens.length < max)
    (hdepth : s.stack.length < jsonMaxDepth) :
    readOn max i (o :: rest) s =
      readOn max (i + 1) rest
        ⟨s.tokens ++ [⟨type, i, 0⟩], s.tokens.length :: s.stack⟩ := by
  have hturn : jsonTurn max i o rest s = .ok
      (⟨s.tokens ++ [⟨type, i, 0⟩], s.tokens.length :: s.stack⟩, 0) := by
    cases hbrackets <;>
    · rw [jsonTurn, if_pos (by decide)]
      simp [allocTok, not_le.mpr hmax, not_le.mpr hdepth]
  rw [readOn_of_turn hturn, List.drop_zero, Nat.add_zero]

theorem readOn_close {max i k : ℕ} {o c : UInt8} {type : JsonType} {rest : List UInt8}
    {toks : List JsonTok} {stack : List ℕ} {t : JsonTok} (hbrackets : Brackets o c type)
    (ht : toks[k]? = some t) (htype : t.type = type) :
    readOn max i (c :: rest) ⟨toks, k :: stack⟩ =
      readOn max (i + 1) rest ⟨toks.set k { t with stop := i + 1 }, stack⟩ := by
  have hturn : jsonTurn max i c rest ⟨toks, k :: stack⟩ = .ok
      (⟨toks.set k { t with stop := i + 1 }, stack⟩, 0) := by
    cases hbrackets <;>
    · rw [jsonTurn, if_neg (by decide), if_pos (by decide)]
      simp [ht, htype]
  rw [readOn_of_turn hturn, List.drop_zero, Nat.add_zero]

/-- A container: its token comes before those of what it contains. -/
theorem readOn_container {max i : ℕ} {o c : UInt8} {type : JsonType} {body rest : List UInt8}
    {s : JsonState} {inner : List JsonTok} (hbrackets : Brackets o c type)
    (hmax : s.tokens.length < max) (hdepth : s.stack.length < jsonMaxDepth)
    (hinner : readOn max (i + 1) (body ++ c :: rest)
        ⟨s.tokens ++ [⟨type, i, 0⟩], s.tokens.length :: s.stack⟩ =
      readOn max (i + 1 + body.length) (c :: rest)
        ⟨s.tokens ++ [⟨type, i, 0⟩] ++ inner, s.tokens.length :: s.stack⟩) :
    readOn max i (o :: (body ++ c :: rest)) s =
      readOn max (i + (body.length + 2)) rest
        { s with tokens := s.tokens ++ ⟨type, i, i + (body.length + 2)⟩ :: inner } := by
  have hget : (s.tokens ++ [⟨type, i, 0⟩] ++ inner)[s.tokens.length]? = some ⟨type, i, 0⟩ := by
    simp
  have hstop : i + 1 + body.length + 1 = i + (body.length + 2) := by omega
  rw [readOn_open hbrackets hmax hdepth, hinner, readOn_close hbrackets hget rfl, hstop]
  simp

theorem Delimited.elements (es : Elements) {rest : List UInt8} (h : Delimited rest) :
    Delimited (es.text false ++ rest) := by
  cases es with
  | nil => exact h
  | cons before value after more => exact .cons rfl

theorem Delimited.members (ms : Members) {rest : List UInt8} (h : Delimited rest) :
    Delimited (ms.text false ++ rest) := by
  cases ms with
  | nil => exact h
  | cons before key keyAfter valueBefore value after more => exact .cons rfl

/-! ## Values -/

mutual

theorem Value.length_tokens (v : Value) (p : ℕ) : (v.tokens p).length = v.size := by
  cases v with
  | primitive t => rfl
  | string items => rfl
  | array lead elements => simp [Value.tokens, Value.size, elements.length_tokens]
  | object lead members => simp [Value.tokens, Value.size, members.length_tokens]

theorem Elements.length_tokens (es : Elements) (first : Bool) (p : ℕ) :
    (es.tokens first p).length = es.size := by
  cases es with
  | nil => rfl
  | cons before value after rest =>
      simp [Elements.tokens, Elements.size, value.length_tokens, rest.length_tokens]

theorem Members.length_tokens (ms : Members) (first : Bool) (p : ℕ) :
    (ms.tokens first p).length = ms.size := by
  cases ms with
  | nil => rfl
  | cons before key keyAfter valueBefore value after rest =>
      simp [Members.tokens, Members.size, value.length_tokens, rest.length_tokens]

end

mutual

/-- **A value** is read into its tokens, whatever follows it. -/
theorem Value.readOn (v : Value) {max i : ℕ} {rest : List UInt8} {s : JsonState}
    (hmax : s.tokens.length + v.size ≤ max) (hdepth : s.stack.length + v.depth ≤ jsonMaxDepth)
    (hrest : Delimited rest) :
    JsonDoc.readOn max i (v.text ++ rest) s =
      JsonDoc.readOn max (i + v.text.length) rest
        { s with tokens := s.tokens ++ v.tokens i } := by
  cases v with
  | primitive t => exact readOn_primitive t hrest hmax
  | string items => exact readOn_quoted (stringLen_items items rest) hmax
  | array lead elements =>
      simp only [Value.size, Value.depth] at hmax hdepth
      have hinner : JsonDoc.readOn max (i + 1) (lead.text ++ elements.text true ++ 0x5d :: rest)
            ⟨s.tokens ++ [⟨.array, i, 0⟩], s.tokens.length :: s.stack⟩ =
          JsonDoc.readOn max (i + 1 + (lead.text ++ elements.text true).length) (0x5d :: rest)
            ⟨s.tokens ++ [⟨.array, i, 0⟩] ++ elements.tokens true (i + 1 + lead.text.length),
              s.tokens.length :: s.stack⟩ := by
        rw [List.append_assoc, readOn_skip (skipped_blank lead),
          elements.readOn true (by simp; omega) (by simp; omega) (.cons rfl), List.length_append,
          Nat.add_assoc (i + 1)]
      have hbody := readOn_container .array (by omega) (by omega) hinner
      have hlen : (Value.array lead elements).text.length
          = (lead.text ++ elements.text true).length + 2 := by
        simp only [Value.text, List.length_cons, List.length_append, List.length_nil]
        omega
      rw [Value.tokens, hlen, ← hbody]
      simp [Value.text]
  | object lead members =>
      simp only [Value.size, Value.depth] at hmax hdepth
      have hinner : JsonDoc.readOn max (i + 1) (lead.text ++ members.text true ++ 0x7d :: rest)
            ⟨s.tokens ++ [⟨.object, i, 0⟩], s.tokens.length :: s.stack⟩ =
          JsonDoc.readOn max (i + 1 + (lead.text ++ members.text true).length) (0x7d :: rest)
            ⟨s.tokens ++ [⟨.object, i, 0⟩] ++ members.tokens true (i + 1 + lead.text.length),
              s.tokens.length :: s.stack⟩ := by
        rw [List.append_assoc, readOn_skip (skipped_blank lead),
          members.readOn true (by simp; omega) (by simp; omega) (.cons rfl), List.length_append,
          Nat.add_assoc (i + 1)]
      have hbody := readOn_container .object (by omega) (by omega) hinner
      have hlen : (Value.object lead members).text.length
          = (lead.text ++ members.text true).length + 2 := by
        simp only [Value.text, List.length_cons, List.length_append, List.length_nil]
        omega
      rw [Value.tokens, hlen, ← hbody]
      simp [Value.text]

theorem Elements.readOn (es : Elements) (first : Bool) {max i : ℕ} {rest : List UInt8}
    {s : JsonState} (hmax : s.tokens.length + es.size ≤ max)
    (hdepth : s.stack.length + es.depth ≤ jsonMaxDepth) (hrest : Delimited rest) :
    JsonDoc.readOn max i (es.text first ++ rest) s =
      JsonDoc.readOn max (i + (es.text first).length) rest
        { s with tokens := s.tokens ++ es.tokens first i } := by
  cases es with
  | nil => simp [Elements.text, Elements.tokens]
  | cons before value after more =>
      simp only [Elements.size, Elements.depth] at hmax hdepth
      have hmore := hrest.elements more
      simp only [Elements.text, List.append_assoc]
      rw [readOn_skip (skipped_gap first before),
        value.readOn (by omega) (by omega) (hmore.blank after),
        readOn_skip (skipped_blank after),
        more.readOn false (by simp [value.length_tokens]; omega) (by simp; omega) hrest]
      simp only [Elements.tokens, List.append_assoc, List.length_append]
      congr 1
      omega

theorem Members.readOn (ms : Members) (first : Bool) {max i : ℕ} {rest : List UInt8}
    {s : JsonState} (hmax : s.tokens.length + ms.size ≤ max)
    (hdepth : s.stack.length + ms.depth ≤ jsonMaxDepth) (hrest : Delimited rest) :
    JsonDoc.readOn max i (ms.text first ++ rest) s =
      JsonDoc.readOn max (i + (ms.text first).length) rest
        { s with tokens := s.tokens ++ ms.tokens first i } := by
  cases ms with
  | nil => simp [Members.text, Members.tokens]
  | cons before key keyAfter valueBefore value after more =>
      simp only [Members.size, Members.depth] at hmax hdepth
      have hmore := hrest.members more
      simp only [Members.text, List.append_assoc]
      rw [readOn_skip (skipped_gap first before), readOn_quoted (stringLen_key key _) (by omega),
        readOn_skip (skipped_colon keyAfter valueBefore),
        value.readOn (by simp; omega) (by simp; omega) (hmore.blank after),
        readOn_skip (skipped_blank after),
        more.readOn false (by simp [value.length_tokens]; omega) (by simp; omega) hrest]
      simp only [Members.tokens, List.append_assoc, List.length_append]
      congr 1
      omega

end

/-! ## The document -/

/-- **The whole text** is read into the tokens of its value. -/
theorem jsonParse_text (d : Document) {max : ℕ} (hmax : d.value.size ≤ max)
    (hdepth : d.value.depth ≤ jsonMaxDepth) :
    jsonParse d.text max = .ok (d.value.tokens d.before.text.length) := by
  have hpos : 0 < d.value.size := by
    cases d.value <;> simp [Value.size]
  have hread : JsonDoc.readOn max 0 d.text ⟨[], []⟩
      = .ok ⟨d.value.tokens d.before.text.length, []⟩ := by
    have hafter : ∀ j s, JsonDoc.readOn max j d.after.text s = .ok s := by
      intro j s
      have hskip := @readOn_skip max _ (skipped_blank d.after) j [] s
      rwa [List.append_nil, readOn_nil] at hskip
    have hdelimited : Delimited d.after.text := by
      have hnil := Delimited.nil.blank d.after
      rwa [List.append_nil] at hnil
    rw [Document.text, readOn_skip (skipped_blank d.before),
      d.value.readOn (by simpa using hmax) (by simpa using hdepth) hdelimited, hafter,
      Nat.zero_add, List.nil_append]
  have hloop : jsonLoop max d.text.length 0 d.text ⟨[], []⟩
      = .ok ⟨d.value.tokens d.before.text.length, []⟩ := hread
  rw [jsonParse, if_neg (by omega), hloop]
  simp

end Luks.JsonDoc
