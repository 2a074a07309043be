import Mathlib.Data.List.Find
import OpenExt4.Crypto.JsonReader

set_option autoImplicit false

/-! # What the JSON reader promises

Two things: on a document of the grammar the tokens and the walks are those of the syntax tree; on
any other bytes the reader ends, and nothing it gives out lies outside. -/

namespace Luks.JsonDoc

/-! ## At a place of a document -/

/-- At token `pl.index` the walking functions give what the syntax tree has at the place. -/
structure ReadRight (js : List UInt8) (toks : List JsonTok) (pl : Place) : Prop where
  token : toks[pl.index]? = (pl.value.tokens pl.pos).head?
  text : (js.drop pl.pos).take pl.value.text.length = pl.value.text
  get : ∀ key, jsonObjectGet js toks (some pl.index) key
    = (pl.members.find? fun m => m.key = key).map (·.place.index)
  element : ∀ n, jsonArrayGet toks (some pl.index) n = (pl.elements[n]?).map (·.index)
  count : jsonObjectCount toks (some pl.index) = pl.members.length
  keyAt : ∀ n, jsonObjectKeyAt toks (some pl.index) n = (pl.members[n]?).map (·.keyIndex)
  keys : ∀ m ∈ pl.members, ∃ t, toks[m.keyIndex]? = some t ∧ jsonText js t = m.key

section Place

variable {js : List UInt8} {toks : List JsonTok} {pl : Place}

theorem Place.Stands.token (h : pl.Stands js toks) :
    toks[pl.index]? = (pl.value.tokens pl.pos).head? := by
  have hsize : 0 < (pl.value.tokens pl.pos).length := by
    cases pl.value <;> simp [Value.tokens]
  have hget := Lies.getElem? h hsize
  rwa [Nat.add_zero, ← List.head?_eq_getElem?] at hget

/-- What is no object has no members and no key. -/
theorem members_of_not_object {t : JsonTok} {k : ℕ} (ht : toks[k]? = some t)
    (htype : t.type ≠ .object) :
    members toks (some k) = [] ∧ ∀ n, jsonObjectKeyAt toks (some k) n = none := by
  have hat : jsonAt toks (some k) = some t := ht
  refine ⟨?_, fun n => ?_⟩
  · unfold members
    rw [hat]
    exact if_neg htype
  · unfold jsonObjectKeyAt
    rw [hat]
    exact if_neg htype

theorem arrayGet_of_not_array {t : JsonTok} {k : ℕ} (ht : toks[k]? = some t)
    (htype : t.type ≠ .array) (n : ℕ) : jsonArrayGet toks (some k) n = none := by
  have hat : jsonAt toks (some k) = some t := ht
  unfold jsonArrayGet
  rw [hat]
  exact if_neg htype

/-- What is neither object nor array. -/
theorem readRight_leaf (h : pl.Stands js toks) {t : JsonTok}
    (htoken : (pl.value.tokens pl.pos).head? = some t) (hobject : t.type ≠ .object)
    (harray : t.type ≠ .array) (hmembers : pl.members = []) (helements : pl.elements = []) :
    ReadRight js toks pl := by
  have ht := h.token.trans htoken
  obtain ⟨hnone, hkey⟩ := members_of_not_object ht hobject
  refine ⟨h.token, Lies.take_drop h, fun key => ?_, fun n => ?_, ?_, fun n => ?_, fun m hm => ?_⟩
  · rw [jsonObjectGet, hnone, hmembers]
    rfl
  · rw [arrayGet_of_not_array ht harray, helements]
    rfl
  · rw [jsonObjectCount, hnone, hmembers]
    rfl
  · rw [hkey, hmembers]
    rfl
  · rw [hmembers] at hm
    exact absurd hm List.not_mem_nil

theorem readRight_array {k p : ℕ} {lead : Blank} {elements : Elements}
    (h : Place.Stands js toks ⟨k, p, .array lead elements⟩) :
    ReadRight js toks ⟨k, p, .array lead elements⟩ := by
  have ht := h.token.trans (List.head?_cons ..)
  obtain ⟨hnone, hkey⟩ := members_of_not_object ht (by simp)
  obtain ⟨hlies, hlimit⟩ := h.lies_elements
  refine ⟨h.token, Lies.take_drop h, fun key => ?_, fun n => ?_, ?_, fun n => ?_, fun m hm => ?_⟩
  · rw [jsonObjectGet, hnone]
    rfl
  · have hat : jsonAt toks (some k) = _ := ht
    unfold jsonArrayGet
    rw [hat]
    exact elementFrom_eq elements hlies hlimit n
  · rw [jsonObjectCount, hnone]
    rfl
  · rw [hkey]
    rfl
  · exact absurd hm List.not_mem_nil

theorem readRight_object {k p : ℕ} {lead : Blank} {ms : Members}
    (h : Place.Stands js toks ⟨k, p, .object lead ms⟩) :
    ReadRight js toks ⟨k, p, .object lead ms⟩ := by
  have ht := h.token.trans (List.head?_cons ..)
  have hat : jsonAt toks (some k) = _ := ht
  obtain ⟨hlies, hlimit⟩ := h.lies_members
  have hsize : ms.size ≤ toks.length := by
    obtain ⟨pre, post, htoks, -, -⟩ := hlies.tokens
    rw [htoks, List.length_append, List.length_append, ms.length_tokens]
    omega
  have hmembers : members toks (some k) = (Place.members ⟨k, p, .object lead ms⟩).map
      fun m => (m.keyIndex, m.place.index) := by
    unfold members
    rw [hat]
    exact membersFrom_eq ms hlies hlimit hsize
  have hstands := ms.stands hlies hlimit
  refine ⟨h.token, Lies.take_drop h, fun key => ?_, fun n => ?_, ?_, fun n => ?_, fun m hm => ?_⟩
  · rw [jsonObjectGet, hmembers, List.find?_map, Option.map_map]
    congr 1
    refine List.find?_congr fun m hm => ?_
    obtain ⟨-, t, hget, htype, htext⟩ := hstands m hm
    have hkeyAt : jsonAt toks (some m.keyIndex) = some t := hget
    simp [jsonEquals, hkeyAt, htype, htext]
  · rw [arrayGet_of_not_array ht (by simp)]
    rfl
  · rw [jsonObjectCount, hmembers, List.length_map]
  · unfold jsonObjectKeyAt
    rw [hat]
    exact keyFrom_eq ms hlies hlimit n
  · obtain ⟨-, t, hget, -, htext⟩ := hstands m hm
    exact ⟨t, hget, htext⟩

/-- **At every place** the walks are right. -/
theorem Place.Stands.readRight (h : pl.Stands js toks) : ReadRight js toks pl := by
  obtain ⟨k, p, v⟩ := pl
  cases v with
  | primitive t => exact readRight_leaf h rfl (by simp) (by simp) rfl rfl
  | string items => exact readRight_leaf h rfl (by simp) (by simp) rfl rfl
  | array lead elements => exact readRight_array h
  | object lead ms => exact readRight_object h

end Place

/-! ## On any bytes -/

/-- The state at position `i`: a token that is not open any more spans bytes before it. -/
structure Sound (max i : ℕ) (s : JsonState) : Prop where
  length : s.tokens.length ≤ max
  depth : s.stack.length ≤ jsonMaxDepth
  opened : ∀ k ∈ s.stack, k < s.tokens.length
  start : ∀ t ∈ s.tokens, t.start ≤ i
  closed : ∀ k t, s.tokens[k]? = some t → k ∉ s.stack → t.start ≤ t.stop ∧ t.stop ≤ i

theorem stringLen_lt {rest : List UInt8} {n : ℕ} (h : stringLen rest = some n) :
    n < rest.length := by
  induction rest using stringLen.induct generalizing n with
  | case1 => simp [stringLen] at h
  | case2 rest =>
      rw [stringLen_quote] at h
      cases h
      simp
  | case3 => simp [stringLen] at h
  | case4 c rest hquote ih =>
      rw [stringLen] at h
      obtain ⟨m, hm, rfl⟩ := Option.map_eq_some_iff.mp h
      have hlt := ih hm
      simp only [List.length_cons]
      omega
  | case5 c rest hquote hescape ih =>
      rw [stringLen.eq_def] at h
      simp only [hquote, hescape, if_false] at h
      obtain ⟨m, hm, rfl⟩ := Option.map_eq_some_iff.mp h
      have hlt := ih hm
      simp only [List.length_cons]
      omega

theorem primitiveLen_le {rest : List UInt8} {n : ℕ} (h : primitiveLen rest = some n) :
    n ≤ rest.length := by
  induction rest generalizing n with
  | nil =>
      cases h
      exact le_rfl
  | cons c rest ih =>
      rw [primitiveLen] at h
      split_ifs at h
      · cases h
        exact Nat.zero_le _
      · obtain ⟨m, hm, rfl⟩ := Option.map_eq_some_iff.mp h
        have hle := ih hm
        simp only [List.length_cons]
        omega

section Sound

variable {max i : ℕ} {s s' : JsonState}

theorem Sound.mono (h : Sound max i s) {j : ℕ} (hij : i ≤ j) : Sound max j s where
  length := h.length
  depth := h.depth
  opened := h.opened
  start t ht := (h.start t ht).trans hij
  closed k t ht hk := ⟨(h.closed k t ht hk).1, (h.closed k t ht hk).2.trans hij⟩

/-- A token that is put behind the others. -/
theorem Sound.alloc (h : Sound max i s) {t : JsonTok} {j : ℕ} {st : List ℕ}
    (hs' : allocTok max t s = .ok s') (hij : i ≤ j) (hstart : t.start ≤ j)
    (hst : st = s'.stack ∧ t.start ≤ t.stop ∧ t.stop ≤ j ∨
      st = (s'.tokens.length - 1) :: s'.stack ∧ st.length ≤ jsonMaxDepth) :
    Sound max j { s' with stack := st } := by
  unfold allocTok at hs'
  split_ifs at hs' with hroom
  obtain rfl := Except.ok.inj hs'
  have hmono := h.mono hij
  have hold : ∀ k u, (s.tokens ++ [t])[k]? = some u → k < s.tokens.length → s.tokens[k]? = some u := by
    intro k u hu hk
    rwa [List.getElem?_append_left hk] at hu
  have hnew : ∀ k u, (s.tokens ++ [t])[k]? = some u → s.tokens.length ≤ k →
      k = s.tokens.length ∧ u = t := by
    intro k u hu hk
    have hlt := (List.getElem?_eq_some_iff.mp hu).1
    rw [List.length_append, List.length_singleton] at hlt
    obtain rfl : k = s.tokens.length := by omega
    rw [List.getElem?_concat_length] at hu
    exact ⟨rfl, (Option.some.inj hu).symm⟩
  refine ⟨by simp; omega, ?_, fun k hk => ?_, fun u hu => ?_, fun k u hu hk => ?_⟩
  · rcases hst with ⟨rfl, -⟩ | ⟨rfl, hdepth⟩
    · exact h.depth
    · exact hdepth
  · simp only [List.length_append, List.length_singleton] at hst ⊢
    rcases hst with ⟨rfl, -⟩ | ⟨rfl, -⟩
    · have hlt := h.opened k hk
      omega
    · rcases List.mem_cons.mp hk with rfl | hrest
      · omega
      · have hlt := h.opened k hrest
        omega
  · rcases List.mem_append.mp hu with hmem | hlast
    · exact hmono.start u hmem
    · obtain rfl := List.mem_singleton.mp hlast
      exact hstart
  · by_cases hlt : k < s.tokens.length
    · refine hmono.closed k u (hold k u hu hlt) fun hmem => hk ?_
      rcases hst with ⟨rfl, -⟩ | ⟨rfl, -⟩
      · exact hmem
      · exact List.mem_cons_of_mem _ hmem
    · obtain ⟨rfl, rfl⟩ := hnew k u hu (not_lt.mp hlt)
      rcases hst with ⟨-, hclosed⟩ | ⟨rfl, -⟩
      · exact hclosed
      · exact absurd (by simp) hk

/-- A container that is closed. -/
theorem Sound.close (h : Sound max i s) {k : ℕ} {st : List ℕ} {t : JsonTok}
    (hstack : s.stack = k :: st) (ht : s.tokens[k]? = some t) :
    Sound max (i + 1) ⟨s.tokens.set k { t with stop := i + 1 }, st⟩ := by
  have hdepth := h.depth
  rw [hstack, List.length_cons] at hdepth
  have hstart := h.start t (List.mem_of_getElem? ht)
  refine ⟨by simpa using h.length, by dsimp only; omega, fun j hj => ?_, fun u hu => ?_,
    fun j u hu hj => ?_⟩
  · rw [List.length_set]
    exact h.opened j (by rw [hstack]; exact List.mem_cons_of_mem _ hj)
  · rcases List.mem_or_eq_of_mem_set hu with hmem | rfl
    · have hle := h.start u hmem
      omega
    · dsimp only
      omega
  · by_cases hjk : k = j
    · subst hjk
      rw [List.getElem?_set_self (List.getElem?_eq_some_iff.mp ht).1] at hu
      obtain rfl := Option.some.inj hu
      dsimp only
      omega
    · rw [List.getElem?_set_ne hjk] at hu
      have hout : j ∉ s.stack := by
        rw [hstack]
        exact List.not_mem_cons_of_ne_of_not_mem (Ne.symm hjk) hj
      have hclosed := h.closed j u hu hout
      omega

/-- **One turn** leaves the state sound, and takes no more characters than there are. -/
theorem jsonTurn_sound {c : UInt8} {rest : List UInt8} {n : ℕ} (h : Sound max i s)
    (hturn : jsonTurn max i c rest s = .ok (s', n)) :
    Sound max (i + 1 + n) s' ∧ n ≤ rest.length := by
  unfold jsonTurn at hturn
  by_cases hopen : c = 0x7b ∨ c = 0x5b
  · rw [if_pos hopen] at hturn
    cases halloc : allocTok max ⟨if c = 0x7b then .object else .array, i, 0⟩ s with
    | error e => simp [halloc] at hturn
    | ok u =>
        rw [halloc] at hturn
        dsimp only at hturn
        split_ifs at hturn with hdeep
        obtain ⟨rfl, rfl⟩ := Prod.mk.inj (Except.ok.inj hturn)
        refine ⟨h.alloc halloc (by omega) (by dsimp only; omega) (.inr ⟨rfl, ?_⟩), Nat.zero_le _⟩
        rw [List.length_cons]
        omega
  rw [if_neg hopen] at hturn
  by_cases hclose : c = 0x7d ∨ c = 0x5d
  · rw [if_pos hclose] at hturn
    cases hstack : s.stack with
    | nil => simp [hstack] at hturn
    | cons top st =>
        rw [hstack] at hturn
        dsimp only at hturn
        cases ht : s.tokens[top]? with
        | none => simp [ht] at hturn
        | some t =>
            rw [ht] at hturn
            dsimp only at hturn
            by_cases htype : t.type ≠ (if c = 0x7d then JsonType.object else JsonType.array)
            · simp [if_pos htype] at hturn
            · rw [if_neg htype] at hturn
              obtain ⟨rfl, rfl⟩ := Prod.mk.inj (Except.ok.inj hturn)
              exact ⟨h.close hstack ht, Nat.zero_le _⟩
  rw [if_neg hclose] at hturn
  split_ifs at hturn with hquote hskip
  · cases hlen : stringLen rest with
    | none => simp [hlen] at hturn
    | some m =>
        rw [hlen] at hturn
        dsimp only at hturn
        cases halloc : allocTok max ⟨.string, i + 1, i + 1 + m⟩ s with
        | error e => simp [halloc] at hturn
        | ok u =>
            rw [halloc] at hturn
            obtain ⟨rfl, rfl⟩ := Prod.mk.inj (Except.ok.inj hturn)
            exact ⟨h.alloc halloc (by omega) (by dsimp only; omega)
              (.inl ⟨rfl, by dsimp only; omega, by dsimp only; omega⟩), stringLen_lt hlen⟩
  · obtain ⟨rfl, rfl⟩ := Prod.mk.inj (Except.ok.inj hturn)
    exact ⟨h.mono (by omega), Nat.zero_le _⟩
  · cases hlen : primitiveLen (c :: rest) with
    | none => simp [hlen] at hturn
    | some m =>
        rw [hlen] at hturn
        dsimp only at hturn
        have hle := primitiveLen_le hlen
        rw [List.length_cons] at hle
        cases halloc : allocTok max ⟨.primitive, i, i + m⟩ s with
        | error e => simp [halloc] at hturn
        | ok u =>
            rw [halloc] at hturn
            obtain ⟨rfl, rfl⟩ := Prod.mk.inj (Except.ok.inj hturn)
            exact ⟨h.alloc halloc (by omega) (by dsimp only; omega)
              (.inl ⟨rfl, by dsimp only; omega, by dsimp only; omega⟩), by omega⟩

/-- **The loop** leaves the state sound at the end of the text. -/
theorem jsonLoop_sound {fuel : ℕ} {rest : List UInt8} (hfuel : rest.length ≤ fuel)
    (h : Sound max i s) (hloop : jsonLoop max fuel i rest s = .ok s') :
    Sound max (i + rest.length) s' := by
  induction fuel generalizing i rest s with
  | zero =>
      obtain rfl : rest = [] := List.length_eq_zero_iff.mp (Nat.le_zero.mp hfuel)
      obtain rfl := Except.ok.inj hloop
      exact h
  | succ fuel ih =>
      cases rest with
      | nil =>
          obtain rfl := Except.ok.inj hloop
          exact h
      | cons c rest =>
          rw [jsonLoop] at hloop
          cases hturn : jsonTurn max i c rest s with
          | error e => simp [hturn] at hloop
          | ok r =>
              obtain ⟨u, n⟩ := r
              rw [hturn] at hloop
              obtain ⟨hsound, hn⟩ := jsonTurn_sound h hturn
              simp only [List.length_cons] at hfuel ⊢
              have hend := ih (by simp; omega) hsound hloop
              rw [List.length_drop] at hend
              exact hend.mono (by omega)

end Sound

/-! ## Walks on any tokens -/

section Walks

variable {js : List UInt8} {toks : List JsonTok}

theorem jsonSkip_le (idx : Option ℕ) : jsonSkip toks idx ≤ toks.length := by
  unfold jsonSkip
  split
  next i t ht =>
    have hlt := (List.getElem?_eq_some_iff.mp (show toks[i]? = some t from ht)).1
    have hle := (List.takeWhile_sublist (fun u : JsonTok => decide (u.start < t.stop))
      (l := toks.drop (i + 1))).length_le
    rw [List.length_drop] at hle
    omega
  · exact le_rfl

theorem lt_jsonSkip {i : ℕ} (h : i < toks.length) : i < jsonSkip toks (some i) := by
  have hat : jsonAt toks (some i) = some toks[i] := List.getElem?_eq_getElem h
  unfold jsonSkip
  rw [hat]
  dsimp only
  omega

/-- The walk over members ends before its fuel does. -/
theorem membersFrom_settled {limit i fuel fuel' : ℕ} (h : toks.length ≤ i + fuel)
    (h' : toks.length ≤ i + fuel') :
    membersFrom toks limit fuel i = membersFrom toks limit fuel' i := by
  induction fuel generalizing i fuel' with
  | zero =>
      have hnone : toks[i]? = none := List.getElem?_eq_none (by omega)
      cases fuel' with
      | zero => rfl
      | succ fuel' => simp [membersFrom, hnone]
  | succ fuel ih =>
      cases fuel' with
      | zero =>
          have hnone : toks[i]? = none := List.getElem?_eq_none (by omega)
          simp [membersFrom, hnone]
      | succ fuel' =>
          simp only [membersFrom]
          cases hk : toks[i]? with
          | none => rfl
          | some k =>
              dsimp only
              have hi := (List.getElem?_eq_some_iff.mp hk).1
              have hskip := lt_jsonSkip hi
              cases hv : toks[jsonSkip toks (some i)]? with
              | none => rfl
              | some u =>
                  dsimp only
                  have hskip' := lt_jsonSkip (List.getElem?_eq_some_iff.mp hv).1
                  rw [@ih (jsonSkip toks (some (jsonSkip toks (some i)))) fuel' (by omega) (by omega)]

theorem mem_membersFrom {limit i fuel : ℕ} {m : ℕ × ℕ} (h : m ∈ membersFrom toks limit fuel i) :
    m.2 < toks.length := by
  induction fuel generalizing i with
  | zero => exact absurd h List.not_mem_nil
  | succ fuel ih =>
      rw [membersFrom] at h
      cases hk : toks[i]? with
      | none => simp [hk] at h
      | some k =>
          rw [hk] at h
          dsimp only at h
          split_ifs at h
          · cases hv : toks[jsonSkip toks (some i)]? with
            | none => simp [hv] at h
            | some u =>
                rw [hv] at h
                dsimp only at h
                split_ifs at h
                · rcases List.mem_cons.mp h with rfl | hrest
                  · exact (List.getElem?_eq_some_iff.mp hv).1
                  · exact ih hrest
                · exact absurd h List.not_mem_nil
          · exact absurd h List.not_mem_nil

theorem length_membersFrom (limit fuel i : ℕ) : (membersFrom toks limit fuel i).length ≤ fuel := by
  induction fuel generalizing i with
  | zero => exact le_rfl
  | succ fuel ih =>
      rw [membersFrom]
      cases toks[i]? with
      | none => exact Nat.zero_le _
      | some k =>
          dsimp only
          split_ifs
          · cases toks[jsonSkip toks (some i)]? with
            | none => exact Nat.zero_le _
            | some u =>
                dsimp only
                split_ifs
                · exact Nat.succ_le_succ (ih _)
                · exact Nat.zero_le _
          · exact Nat.zero_le _

theorem elementFrom_lt {limit i n j : ℕ} (h : elementFrom toks limit n i = some j) :
    j < toks.length := by
  induction n generalizing i with
  | zero =>
      unfold elementFrom at h
      cases ht : toks[i]? with
      | none => simp [ht] at h
      | some t =>
          rw [ht] at h
          dsimp only at h
          split_ifs at h
          obtain rfl := Option.some.inj h
          exact (List.getElem?_eq_some_iff.mp ht).1
  | succ n ih =>
      unfold elementFrom at h
      cases ht : toks[i]? with
      | none => simp [ht] at h
      | some t =>
          rw [ht] at h
          dsimp only at h
          split_ifs at h
          exact ih h

theorem keyFrom_lt {limit i n j : ℕ} (h : keyFrom toks limit n i = some j) : j < toks.length := by
  induction n generalizing i with
  | zero =>
      unfold keyFrom at h
      cases ht : toks[i]? with
      | none => simp [ht] at h
      | some t =>
          rw [ht] at h
          dsimp only at h
          split_ifs at h
          obtain rfl := Option.some.inj h
          exact (List.getElem?_eq_some_iff.mp ht).1
  | succ n ih =>
      unfold keyFrom at h
      cases ht : toks[i]? with
      | none => simp [ht] at h
      | some t =>
          rw [ht] at h
          dsimp only at h
          split_ifs at h
          exact ih h

end Walks

/-! ## The reader -/

/-- The walks on the tokens `toks` of the text `js` end, and give no index that is none of theirs. -/
structure WalksSafe (js : List UInt8) (toks : List JsonTok) : Prop where
  skip : ∀ idx, jsonSkip toks idx ≤ toks.length
  skipOn : ∀ i < toks.length, i < jsonSkip toks (some i)
  ends : ∀ limit i fuel, toks.length ≤ fuel →
    membersFrom toks limit fuel i = membersFrom toks limit toks.length i
  get : ∀ obj key v, jsonObjectGet js toks obj key = some v → v < toks.length
  count : ∀ obj, jsonObjectCount toks obj ≤ toks.length
  element : ∀ arr n v, jsonArrayGet toks arr n = some v → v < toks.length
  keyAt : ∀ obj n k, jsonObjectKeyAt toks obj n = some k → k < toks.length

theorem mem_members {toks : List JsonTok} {obj : Option ℕ} {m : ℕ × ℕ}
    (h : m ∈ members toks obj) : m.2 < toks.length := by
  unfold members at h
  split at h
  · split_ifs at h
    · exact mem_membersFrom h
    · exact absurd h List.not_mem_nil
  · exact absurd h List.not_mem_nil

theorem walksSafe (js : List UInt8) (toks : List JsonTok) : WalksSafe js toks where
  skip := jsonSkip_le
  skipOn _ := lt_jsonSkip
  ends limit i fuel hfuel := membersFrom_settled (by omega) (by omega)
  get := by
    intro obj key v h
    obtain ⟨m, hm, rfl⟩ := Option.map_eq_some_iff.mp h
    exact mem_members (List.mem_of_find?_eq_some hm)
  count := by
    intro obj
    unfold jsonObjectCount members
    split
    · split_ifs
      · exact length_membersFrom ..
      · exact Nat.zero_le _
    · exact Nat.zero_le _
  element := by
    intro arr n v h
    unfold jsonArrayGet at h
    split at h
    · split_ifs at h
      exact elementFrom_lt h
    · cases h
  keyAt := by
    intro obj n k h
    unfold jsonObjectKeyAt at h
    split at h
    · split_ifs at h
      exact keyFrom_lt h
    · cases h

/-- On the bytes `js` the loop of the reader ends; tokens it gives lie within the bytes. -/
structure ReadSafe (js : List UInt8) (max : ℕ) : Prop where
  ends : ∀ fuel, js.length ≤ fuel →
    jsonLoop max fuel 0 js ⟨[], []⟩ = jsonLoop max js.length 0 js ⟨[], []⟩
  length : ∀ toks, jsonParse js max = .ok toks → toks.length ≤ max
  ranges : ∀ toks, jsonParse js max = .ok toks →
    ∀ t ∈ toks, t.start ≤ t.stop ∧ t.stop ≤ js.length
  walks : ∀ toks, jsonParse js max = .ok toks → WalksSafe js toks

theorem jsonParse_sound {js : List UInt8} {max : ℕ} {toks : List JsonTok}
    (h : jsonParse js max = .ok toks) : Sound max js.length ⟨toks, []⟩ := by
  have hstart : Sound max 0 ⟨[], []⟩ := by
    refine ⟨Nat.zero_le _, Nat.zero_le _, by simp, by simp, fun k t ht _ => ?_⟩
    simp at ht
  unfold jsonParse at h
  split_ifs at h
  cases hloop : jsonLoop max js.length 0 js ⟨[], []⟩ with
  | error e => simp [hloop] at h
  | ok s =>
      rw [hloop] at h
      dsimp only at h
      split_ifs at h with hstack
      obtain rfl := Except.ok.inj h
      have hsound := jsonLoop_sound le_rfl hstart hloop
      rw [not_not.mp hstack |>.symm]
      rwa [Nat.zero_add] at hsound

theorem readSafe (js : List UInt8) (max : ℕ) : ReadSafe js max where
  ends fuel hfuel := jsonLoop_settled hfuel le_rfl
  length toks h := (jsonParse_sound h).length
  ranges toks h t ht := by
    obtain ⟨k, hk, rfl⟩ := List.getElem_of_mem ht
    exact (jsonParse_sound h).closed k _ (List.getElem?_eq_getElem hk) List.not_mem_nil
  walks toks _ := walksSafe js toks

/-- **The reader is right and safe.** A document within the limits is read into tokens, and the
    walks find in every container what the grammar says is in it, and nothing else. Any other bytes
    are read to an end as well, and nothing is given out that lies outside of them. -/
theorem jsonReader_right :
    (∀ (d : Document) (max : ℕ), d.value.size ≤ max → d.value.depth ≤ jsonMaxDepth →
      ∃ toks, jsonParse d.text max = .ok toks ∧ toks.length = d.value.size ∧
        ∀ pl, d.Holds pl → ReadRight d.text toks pl) ∧
    ∀ (js : List UInt8) (max : ℕ), ReadSafe js max :=
  ⟨fun d _ hmax hdepth => ⟨_, jsonParse_text d hmax hdepth, d.value.length_tokens _,
    fun _ hpl => hpl.stands.readRight⟩, readSafe⟩

/-! ## A small document -/

def noBlank : Blank := ⟨[], by simp⟩

/-- The document with one member, whose value is an array of one empty string. -/
def oneMember : Document where
  before := ⟨[0x20], by simp [isBlank]⟩
  value := .object noBlank
    (.cons noBlank ⟨[0x61], by simp [isPlain]⟩ noBlank noBlank
      (.array noBlank (.cons noBlank (.string []) noBlank .nil)) noBlank .nil)
  after := noBlank

example : oneMember.text
    = [0x20, 0x7b, 0x22, 0x61, 0x22, 0x3a, 0x5b, 0x22, 0x22, 0x5d, 0x7d] := by decide

theorem jsonReader_oneMember :
    ∃ toks, jsonParse oneMember.text 4 = .ok toks ∧ toks.length = 4 ∧
      jsonObjectGet oneMember.text toks (some 0) [0x61] = some 2 ∧
      jsonObjectGet oneMember.text toks (some 0) [0x62] = none ∧
      jsonArrayGet toks (some 2) 0 = some 3 ∧ jsonArrayGet toks (some 2) 1 = none := by
  obtain ⟨toks, hparse, hlen, hright⟩ := jsonReader_right.1 oneMember 4 (by decide) (by decide)
  have hroot := hright _ .root
  have helement := hright _ (.member .root List.mem_cons_self)
  exact ⟨toks, hparse, hlen, hroot.get [0x61], hroot.get [0x62], helement.element 0,
    helement.element 1⟩

end Luks.JsonDoc
