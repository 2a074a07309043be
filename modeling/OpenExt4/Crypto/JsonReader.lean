import OpenExt4.Crypto.JsonTokens

set_option autoImplicit false

/-! # Walking a document

The walking functions on the tokens of a document find the members and the elements that its syntax
tree has, at every container in it; and on the tokens of anything else that is accepted they stay
within the tokens. -/

namespace Luks.JsonDoc

/-! ## Where tokens lie -/

mutual

/-- The tokens of a value lie within its text. -/
theorem Value.tokens_bounds (v : Value) (p : ℕ) :
    ∀ t ∈ v.tokens p, p ≤ t.start ∧ t.start < p + v.text.length := by
  intro t ht
  cases v with
  | primitive u =>
      have hpos := List.length_pos_iff.mpr u.text_ne_nil
      obtain rfl := List.mem_singleton.mp ht
      exact ⟨le_rfl, Nat.lt_add_of_pos_right hpos⟩
  | string items =>
      obtain rfl := List.mem_singleton.mp ht
      have hlen : 2 ≤ (Value.string items).text.length := by simp [Value.text, quoted]
      exact ⟨Nat.le_succ p, Nat.add_lt_add_left hlen p⟩
  | array lead elements =>
      rcases List.mem_cons.mp ht with rfl | hinner
      · simp [Value.text]
      · have hbounds := elements.tokens_bounds true _ t hinner
        simp only [Value.text, List.length_cons, List.length_append]
        omega
  | object lead members =>
      rcases List.mem_cons.mp ht with rfl | hinner
      · simp [Value.text]
      · have hbounds := members.tokens_bounds true _ t hinner
        simp only [Value.text, List.length_cons, List.length_append]
        omega

theorem Elements.tokens_bounds (es : Elements) (first : Bool) (p : ℕ) :
    ∀ t ∈ es.tokens first p, p ≤ t.start ∧ t.start < p + (es.text first).length := by
  intro t ht
  cases es with
  | nil => exact absurd ht List.not_mem_nil
  | cons before value after rest =>
      simp only [Elements.text, List.length_append]
      rcases List.mem_append.mp ht with hvalue | hrest
      · have hbounds := value.tokens_bounds _ t hvalue
        omega
      · have hbounds := rest.tokens_bounds false _ t hrest
        omega

theorem Members.tokens_bounds (ms : Members) (first : Bool) (p : ℕ) :
    ∀ t ∈ ms.tokens first p, p ≤ t.start ∧ t.start < p + (ms.text first).length := by
  intro t ht
  cases ms with
  | nil => exact absurd ht List.not_mem_nil
  | cons before key keyAfter valueBefore value after rest =>
      simp only [Members.text, List.length_append]
      rcases List.mem_cons.mp ht with rfl | htail
      · simp only [quoted, List.length_cons, List.length_append]
        omega
      · rcases List.mem_append.mp htail with hvalue | hrest
        · have hbounds := value.tokens_bounds _ t hvalue
          omega
        · have hbounds := rest.tokens_bounds false _ t hrest
          omega

end

/-- The text `text` stands at position `p` of `js` and its tokens `inner` from token `k` on; the
    tokens behind them start at `limit` or later. -/
structure Lies (js : List UInt8) (toks : List JsonTok) (text : List UInt8) (inner : List JsonTok)
    (k p limit : ℕ) : Prop where
  text : ∃ a b, js = a ++ (text ++ b) ∧ a.length = p
  tokens : ∃ pre post, toks = pre ++ (inner ++ post) ∧ pre.length = k ∧
    ∀ t ∈ post, limit ≤ t.start

section Lies

variable {js : List UInt8} {toks : List JsonTok} {text text' : List UInt8}
  {inner inner' : List JsonTok} {k p limit : ℕ}

/-- Without the beginning of the text, which has no tokens. -/
theorem Lies.behind (h : Lies js toks (text ++ text') inner k p limit) :
    Lies js toks text' inner k (p + text.length) limit := by
  obtain ⟨a, b, hjs, ha⟩ := h.text
  refine ⟨⟨a ++ text, b, by simp [hjs], by simp [ha]⟩, h.tokens⟩

/-- Without the end of the text. -/
theorem Lies.before (h : Lies js toks (text ++ text') inner k p limit) :
    Lies js toks text inner k p limit := by
  obtain ⟨a, b, hjs, ha⟩ := h.text
  exact ⟨⟨a, text' ++ b, by simp [hjs], ha⟩, h.tokens⟩

/-- The first of the tokens. -/
theorem Lies.left (h : Lies js toks text (inner ++ inner') k p limit) {stop : ℕ}
    (hinner : ∀ t ∈ inner', stop ≤ t.start) (hlimit : stop ≤ limit) :
    Lies js toks text inner k p stop := by
  obtain ⟨pre, post, htoks, hpre, hpost⟩ := h.tokens
  refine ⟨h.text, pre, inner' ++ post, by simp [htoks], hpre, fun t ht => ?_⟩
  rcases List.mem_append.mp ht with hmore | hbehind
  · exact hinner t hmore
  · exact hlimit.trans (hpost t hbehind)

/-- The last of the tokens. -/
theorem Lies.right (h : Lies js toks text (inner ++ inner') k p limit) :
    Lies js toks text inner' (k + inner.length) p limit := by
  obtain ⟨pre, post, htoks, hpre, hpost⟩ := h.tokens
  exact ⟨h.text, pre ++ inner, post, by simp [htoks], by simp [hpre], hpost⟩

theorem Lies.getElem? (h : Lies js toks text inner k p limit) {n : ℕ} (hn : n < inner.length) :
    toks[k + n]? = inner[n]? := by
  obtain ⟨pre, post, rfl, rfl, -⟩ := h.tokens
  rw [List.getElem?_append_right (by omega), List.getElem?_append_left (by omega)]
  congr 1
  omega

/-- Behind the tokens, nothing starts before the limit. -/
theorem Lies.behind_limit (h : Lies js toks text inner k p limit) {t : JsonTok}
    (ht : toks[k + inner.length]? = some t) : limit ≤ t.start := by
  obtain ⟨pre, post, rfl, rfl, hpost⟩ := h.tokens
  rw [List.getElem?_append_right (by omega), List.getElem?_append_right (by omega)] at ht
  exact hpost t (List.mem_of_getElem? ht)

theorem Lies.take_drop (h : Lies js toks text inner k p limit) :
    (js.drop p).take text.length = text := by
  obtain ⟨a, b, rfl, rfl⟩ := h.text
  rw [List.drop_left, List.take_left]

/-- **A subtree is skipped** by the bytes its token spans. -/
theorem Lies.jsonSkip {t : JsonTok} (h : Lies js toks text (t :: inner) k p limit)
    (hinner : ∀ u ∈ inner, u.start < t.stop) (hlimit : t.stop ≤ limit) :
    jsonSkip toks (some k) = k + 1 + inner.length := by
  obtain ⟨pre, post, rfl, rfl, hpost⟩ := h.tokens
  have hget : jsonAt (pre ++ (t :: inner ++ post)) (some pre.length) = some t := by
    simp [jsonAt]
  have hdrop : (pre ++ (t :: inner ++ post)).drop (pre.length + 1) = inner ++ post := by
    rw [← List.drop_drop, List.drop_left]
    rfl
  have hnone : post.takeWhile (·.start < t.stop) = [] := by
    cases post with
    | nil => rfl
    | cons u post =>
        have hu := hpost u List.mem_cons_self
        rw [List.takeWhile_cons_of_neg (by simp; omega)]
  unfold Luks.jsonSkip
  rw [hget]
  dsimp only
  rw [hdrop, List.takeWhile_append_of_pos (by simpa using hinner), hnone, List.append_nil]

end Lies

/-- A value with its tokens. -/
theorem Lies.jsonSkip_value {js : List UInt8} {toks : List JsonTok} {v : Value} {k p limit : ℕ}
    (h : Lies js toks v.text (v.tokens p) k p limit) (hlimit : p + v.text.length ≤ limit) :
    Luks.jsonSkip toks (some k) = k + v.size := by
  cases v with
  | primitive u => exact h.jsonSkip (by simp) hlimit
  | string items =>
      refine h.jsonSkip (by simp) ?_
      simp only [Value.text, quoted, List.length_cons, List.length_append] at hlimit
      dsimp only
      omega
  | array lead elements =>
      rw [h.jsonSkip (fun u hu => ?_) hlimit, elements.length_tokens, Value.size]
      · omega
      · have hbounds := elements.tokens_bounds true _ u hu
        simp only [Value.text, List.length_cons, List.length_append]
        omega
  | object lead members =>
      rw [h.jsonSkip (fun u hu => ?_) hlimit, members.length_tokens, Value.size]
      · omega
      · have hbounds := members.tokens_bounds true _ u hu
        simp only [Value.text, List.length_cons, List.length_append]
        omega

/-- A value has a first token. -/
theorem Lies.first_token {js : List UInt8} {toks : List JsonTok} {v : Value} {k p limit : ℕ}
    (h : Lies js toks v.text (v.tokens p) k p limit) :
    ∃ t, toks[k]? = some t ∧ t.start < p + v.text.length := by
  have hsize : 0 < (v.tokens p).length := by
    cases v <;> simp [Value.tokens]
  have hget := h.getElem? hsize
  rw [Nat.add_zero, List.getElem?_eq_getElem hsize] at hget
  exact ⟨_, hget, (v.tokens_bounds _ _ (List.getElem_mem hsize)).2⟩

/-! ## The elements of an array -/

/-- What stands first and what stands behind it, among the elements. -/
theorem Elements.lies_cons {js : List UInt8} {toks : List JsonTok} {first : Bool} {k p limit : ℕ}
    {before after : Blank} {value : Value} {rest : Elements}
    (h : Lies js toks ((Elements.cons before value after rest).text first)
      ((Elements.cons before value after rest).tokens first p) k p limit)
    (hlimit : p + ((Elements.cons before value after rest).text first).length ≤ limit) :
    Lies js toks value.text (value.tokens (p + (gap first before).length)) k
        (p + (gap first before).length) (p + (gap first before).length + value.text.length) ∧
      Lies js toks (rest.text false)
        (rest.tokens false (p + (gap first before).length + value.text.length + after.text.length))
        (k + value.size) (p + (gap first before).length + value.text.length + after.text.length)
        limit ∧
      p + (gap first before).length + value.text.length + after.text.length
        + (rest.text false).length ≤ limit := by
  simp only [Elements.text, Elements.tokens, List.length_append] at h hlimit
  have hbehind := h.behind
  refine ⟨hbehind.before.left (fun t ht => ?_) (by omega), ?_, by omega⟩
  · have hbounds := rest.tokens_bounds false _ t ht
    omega
  · have hright := hbehind.behind.behind.right
    rwa [value.length_tokens] at hright

/-- `json_array_get` among the elements. -/
theorem elementFrom_eq {js : List UInt8} {toks : List JsonTok} (es : Elements) {first : Bool}
    {k p limit : ℕ} (h : Lies js toks (es.text first) (es.tokens first p) k p limit)
    (hlimit : p + (es.text first).length ≤ limit) (n : ℕ) :
    elementFrom toks limit n k = ((es.places first k p)[n]?).map (·.index) := by
  cases es with
  | nil =>
      unfold elementFrom
      cases ht : toks[k]? with
      | none => simp [Elements.places]
      | some t =>
          have hle := h.behind_limit ht
          simp [Elements.places, not_lt.mpr hle]
  | cons before value after rest =>
      obtain ⟨hvalue, hrest, hlimit'⟩ := Elements.lies_cons h hlimit
      obtain ⟨t, ht, hstart⟩ := hvalue.first_token
      have hlt : t.start < limit := by omega
      unfold elementFrom
      rw [ht]
      cases n with
      | zero => simp [Elements.places, hlt]
      | succ n =>
          simp only [hlt, if_true, Elements.places, List.getElem?_cons_succ]
          rw [hvalue.jsonSkip_value le_rfl]
          exact elementFrom_eq rest hrest hlimit' n

/-! ## The members of an object -/

theorem Members.lies_cons {js : List UInt8} {toks : List JsonTok} {first : Bool} {k p limit : ℕ}
    {before keyAfter valueBefore after : Blank} {key : Key} {value : Value} {rest : Members}
    (h : Lies js toks ((Members.cons before key keyAfter valueBefore value after rest).text first)
      ((Members.cons before key keyAfter valueBefore value after rest).tokens first p) k p limit)
    (hlimit : p + ((Members.cons before key keyAfter valueBefore value after rest).text
      first).length ≤ limit) {q r : ℕ} (hq : q = p + (gap first before).length)
    (hr : r = q + (quoted key.text).length + (colon keyAfter valueBefore).length) :
    Lies js toks (quoted key.text) [⟨.string, q + 1, q + 1 + key.text.length⟩] k q r ∧
      Lies js toks value.text (value.tokens r) (k + 1) r (r + value.text.length) ∧
      Lies js toks (rest.text false)
        (rest.tokens false (r + value.text.length + after.text.length)) (k + 1 + value.size)
        (r + value.text.length + after.text.length) limit ∧
      r + value.text.length + after.text.length + (rest.text false).length ≤ limit := by
  subst hq hr
  simp only [Members.text, Members.tokens, List.length_append] at h hlimit
  have hbehind := h.behind
  rw [← List.singleton_append] at hbehind
  have hvalue := hbehind.behind.behind.right
  refine ⟨hbehind.before.left (fun t ht => ?_) (by omega), hvalue.before.left (fun t ht => ?_)
    (by omega), ?_, by omega⟩
  · rcases List.mem_append.mp ht with hin | hmore
    · exact (value.tokens_bounds _ t hin).1
    · have hbounds := rest.tokens_bounds false _ t hmore
      omega
  · have hbounds := rest.tokens_bounds false _ t ht
    omega
  · have hright := hvalue.behind.behind.right
    rwa [value.length_tokens] at hright

/-- The token of a key, which is stepped over alone. -/
theorem Lies.key_token {js : List UInt8} {toks : List JsonTok} {text : List UInt8} {k q r : ℕ}
    (h : Lies js toks (quoted text) [⟨.string, q + 1, q + 1 + text.length⟩] k q r)
    (hr : q + (quoted text).length ≤ r) :
    toks[k]? = some ⟨.string, q + 1, q + 1 + text.length⟩ ∧ q + 1 < r ∧
      Luks.jsonSkip toks (some k) = k + 1 := by
  simp only [quoted, List.length_cons, List.length_append, List.length_nil] at hr
  exact ⟨h.getElem? Nat.zero_lt_one, by omega, h.jsonSkip (by simp) (by dsimp only; omega)⟩

/-- The members that the walk goes through. -/
theorem membersFrom_eq {js : List UInt8} {toks : List JsonTok} (ms : Members) {first : Bool}
    {k p limit fuel : ℕ} (h : Lies js toks (ms.text first) (ms.tokens first p) k p limit)
    (hlimit : p + (ms.text first).length ≤ limit) (hfuel : ms.size ≤ fuel) :
    membersFrom toks limit fuel k
      = (ms.places first k p).map fun m => (m.keyIndex, m.place.index) := by
  cases ms with
  | nil =>
      cases fuel with
      | zero => rfl
      | succ fuel =>
          unfold membersFrom
          cases ht : toks[k]? with
          | none => simp [Members.places]
          | some t =>
              have hle := h.behind_limit ht
              simp [Members.places, not_lt.mpr hle]
  | cons before key keyAfter valueBefore value after rest =>
      obtain ⟨hkey, hvalue, hrest, hlimit'⟩ := Members.lies_cons h hlimit rfl rfl
      simp only [Members.size] at hfuel
      cases fuel with
      | zero => omega
      | succ fuel =>
          obtain ⟨hget, hstart, hskip⟩ := hkey.key_token (Nat.le_add_right ..)
          obtain ⟨t, ht, hvalueStart⟩ := hvalue.first_token
          unfold membersFrom
          rw [hget]
          dsimp only
          rw [if_pos (by omega), hskip, ht]
          dsimp only
          rw [if_pos (by omega), hvalue.jsonSkip_value le_rfl,
            membersFrom_eq rest hrest hlimit' (by omega)]
          rfl

/-- `json_object_key_at` among the members. -/
theorem keyFrom_eq {js : List UInt8} {toks : List JsonTok} (ms : Members) {first : Bool}
    {k p limit : ℕ} (h : Lies js toks (ms.text first) (ms.tokens first p) k p limit)
    (hlimit : p + (ms.text first).length ≤ limit) (n : ℕ) :
    keyFrom toks limit n k = ((ms.places first k p)[n]?).map (·.keyIndex) := by
  cases ms with
  | nil =>
      unfold keyFrom
      cases ht : toks[k]? with
      | none => simp [Members.places]
      | some t =>
          have hle := h.behind_limit ht
          simp [Members.places, not_lt.mpr hle]
  | cons before key keyAfter valueBefore value after rest =>
      obtain ⟨hkey, hvalue, hrest, hlimit'⟩ := Members.lies_cons h hlimit rfl rfl
      obtain ⟨hget, hstart, hskip⟩ := hkey.key_token (Nat.le_add_right ..)
      unfold keyFrom
      rw [hget]
      dsimp only
      rw [if_pos (by omega)]
      cases n with
      | zero => rfl
      | succ n =>
          simp only [Members.places, List.getElem?_cons_succ]
          rw [hskip, hvalue.jsonSkip_value le_rfl]
          exact keyFrom_eq rest hrest hlimit' n

/-! ## Every place of a document -/

/-- The value at a place stands where the place says. -/
def Place.Stands (js : List UInt8) (toks : List JsonTok) (pl : Place) : Prop :=
  Lies js toks pl.value.text (pl.value.tokens pl.pos) pl.index pl.pos
    (pl.pos + pl.value.text.length)

theorem Elements.stands {js : List UInt8} {toks : List JsonTok} (es : Elements) {first : Bool}
    {k p limit : ℕ} (h : Lies js toks (es.text first) (es.tokens first p) k p limit)
    (hlimit : p + (es.text first).length ≤ limit) :
    ∀ u ∈ es.places first k p, u.Stands js toks := by
  intro u hu
  cases es with
  | nil => exact absurd hu List.not_mem_nil
  | cons before value after rest =>
      obtain ⟨hvalue, hrest, hlimit'⟩ := Elements.lies_cons h hlimit
      rcases List.mem_cons.mp hu with rfl | hmore
      · exact hvalue
      · exact Elements.stands rest hrest hlimit' u hmore

/-- The value of a member stands at its place, and its key is the text of its token. -/
theorem Members.stands {js : List UInt8} {toks : List JsonTok} (ms : Members) {first : Bool}
    {k p limit : ℕ} (h : Lies js toks (ms.text first) (ms.tokens first p) k p limit)
    (hlimit : p + (ms.text first).length ≤ limit) :
    ∀ m ∈ ms.places first k p, m.place.Stands js toks ∧
      ∃ t, toks[m.keyIndex]? = some t ∧ t.type = .string ∧ jsonText js t = m.key := by
  intro m hm
  cases ms with
  | nil => exact absurd hm List.not_mem_nil
  | cons before key keyAfter valueBefore value after rest =>
      obtain ⟨hkey, hvalue, hrest, hlimit'⟩ := Members.lies_cons h hlimit rfl rfl
      rcases List.mem_cons.mp hm with rfl | hmore
      · refine ⟨hvalue, _, (hkey.key_token (Nat.le_add_right ..)).1, rfl, ?_⟩
        obtain ⟨a, b, hjs, ha⟩ := hkey.text
        have hdrop : js.drop (p + (gap first before).length + 1) = key.text ++ (0x22 :: b) := by
          rw [hjs, ← ha, ← List.drop_drop, List.drop_left]
          simp [quoted]
        simp only [jsonText]
        rw [hdrop, Nat.add_sub_cancel_left, List.take_left]
      · exact Members.stands rest hrest hlimit' m hmore

theorem Place.Stands.lies_elements {js : List UInt8} {toks : List JsonTok} {k p : ℕ} {lead : Blank}
    {elements : Elements} (h : Place.Stands js toks ⟨k, p, .array lead elements⟩) :
    Lies js toks (elements.text true) (elements.tokens true (p + 1 + lead.text.length)) (k + 1)
        (p + 1 + lead.text.length) (p + (Value.array lead elements).text.length) ∧
      p + 1 + lead.text.length + (elements.text true).length
        ≤ p + (Value.array lead elements).text.length := by
  refine ⟨?_, ?_⟩
  · have hlies := h
    simp only [Place.Stands, Value.tokens] at hlies
    rw [← List.singleton_append] at hlies
    have hright := hlies.right
    have htext : (Value.array lead elements).text
        = [0x5b] ++ (lead.text ++ (elements.text true ++ [0x5d])) := by
      simp [Value.text]
    rw [htext] at hright ⊢
    exact hright.behind.behind.before
  · simp only [Value.text, List.length_cons, List.length_append]
    omega

theorem Place.Stands.lies_members {js : List UInt8} {toks : List JsonTok} {k p : ℕ} {lead : Blank}
    {members : Members} (h : Place.Stands js toks ⟨k, p, .object lead members⟩) :
    Lies js toks (members.text true) (members.tokens true (p + 1 + lead.text.length)) (k + 1)
        (p + 1 + lead.text.length) (p + (Value.object lead members).text.length) ∧
      p + 1 + lead.text.length + (members.text true).length
        ≤ p + (Value.object lead members).text.length := by
  refine ⟨?_, ?_⟩
  · have hlies := h
    simp only [Place.Stands, Value.tokens] at hlies
    rw [← List.singleton_append] at hlies
    have hright := hlies.right
    have htext : (Value.object lead members).text
        = [0x7b] ++ (lead.text ++ (members.text true ++ [0x7d])) := by
      simp [Value.text]
    rw [htext] at hright ⊢
    exact hright.behind.behind.before
  · simp only [Value.text, List.length_cons, List.length_append]
    omega

/-- What a document holds stands in its text and among its tokens. -/
theorem Document.Holds.stands {d : Document} {pl : Place} (h : d.Holds pl) :
    pl.Stands d.text (d.value.tokens d.before.text.length) := by
  induction h with
  | root => exact ⟨⟨d.before.text, d.after.text, rfl, rfl⟩, [], [], by simp, rfl, by simp⟩
  | @element pl u _ hu ih =>
      obtain ⟨k, p, v⟩ := pl
      cases v with
      | array lead elements =>
          obtain ⟨hlies, hlimit⟩ := ih.lies_elements
          exact elements.stands hlies hlimit u hu
      | primitive t => exact absurd hu List.not_mem_nil
      | string items => exact absurd hu List.not_mem_nil
      | object lead members => exact absurd hu List.not_mem_nil
  | @member pl m _ hm ih =>
      obtain ⟨k, p, v⟩ := pl
      cases v with
      | object lead members =>
          obtain ⟨hlies, hlimit⟩ := ih.lies_members
          exact (members.stands hlies hlimit m hm).1
      | primitive t => exact absurd hm List.not_mem_nil
      | string items => exact absurd hm List.not_mem_nil
      | array lead elements => exact absurd hm List.not_mem_nil

end Luks.JsonDoc
