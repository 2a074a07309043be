import OpenExt4.Crypto.Unlock

set_option autoImplicit false

/-! # The right key

What an unlock should return: a key that some enabled slot yields and that matches a digest of the
container, one that for LUKS2 lists both the slot and the data segment. The code returns the key of
the first slot that matches a digest listing the slot; it does not ask for the segment. -/

namespace Luks

open Bytes

variable {p : Platform} {calls : ℕ → SlotCalls} {m : Medium} {info out : LuksInfo}
  {pass mk : List UInt8} {js : List UInt8} {toks : List JsonTok}

/-! ## Lists of ids -/

/-- The array holds the id. -/
def Lists (js : List UInt8) (toks : List JsonTok) (ids : Option ℕ) (id : List UInt8) : Prop :=
  ∃ e el, jsonArrayGet toks ids e = some el ∧ HasText js toks (some el) id

theorem lt_jsonSkip {i : ℕ} (h : i < toks.length) : i < jsonSkip toks (some i) := by
  have ht : jsonAt toks (some i) = some toks[i] := by simp [jsonAt, h]
  unfold jsonSkip
  simp only [ht]
  omega

/-- Element `n` of a list that starts at token `i`. -/
theorem elementFrom_eq_some {limit n i el : ℕ} : elementFrom toks limit n i = some el ↔
    ∃ t, toks[i]? = some t ∧ t.start < limit ∧
      match n with
      | 0 => i = el
      | n + 1 => elementFrom toks limit n (jsonSkip toks (some i)) = some el := by
  cases n <;> rw [elementFrom] <;> cases toks[i]? <;> simp

/-- Each element of an array lies behind the ones before it. -/
theorem elementFrom_le {limit n i el : ℕ} (h : elementFrom toks limit n i = some el) :
    i + n ≤ el ∧ el < toks.length := by
  induction n generalizing i with
  | zero =>
      obtain ⟨t, ht, -, rfl⟩ := elementFrom_eq_some.mp h
      exact ⟨le_rfl, (List.getElem?_eq_some_iff.mp ht).1⟩
  | succ n ih =>
      obtain ⟨t, ht, -, hrest⟩ := elementFrom_eq_some.mp h
      have hlt := lt_jsonSkip (List.getElem?_eq_some_iff.mp ht).1
      have := ih hrest
      omega

/-- An array with an element has every element before it. -/
theorem elementFrom_of_succ {limit n i el : ℕ} (h : elementFrom toks limit (n + 1) i = some el) :
    ∃ el', elementFrom toks limit n i = some el' := by
  induction n generalizing i with
  | zero =>
      obtain ⟨t, ht, hlimit, -⟩ := elementFrom_eq_some.mp h
      exact ⟨i, elementFrom_eq_some.mpr ⟨t, ht, hlimit, rfl⟩⟩
  | succ n ih =>
      obtain ⟨t, ht, hlimit, hrest⟩ := elementFrom_eq_some.mp h
      obtain ⟨el', hel⟩ := ih hrest
      exact ⟨el', elementFrom_eq_some.mpr ⟨t, ht, hlimit, hel⟩⟩

theorem jsonArrayGet_lt {arr : Option ℕ} {n el : ℕ} (h : jsonArrayGet toks arr n = some el) :
    n < toks.length := by
  unfold jsonArrayGet at h
  split at h
  · split_ifs at h
    have := elementFrom_le h
    omega
  · cases h

theorem jsonArrayGet_of_succ {arr : Option ℕ} {n el : ℕ}
    (h : jsonArrayGet toks arr (n + 1) = some el) : ∃ el', jsonArrayGet toks arr n = some el' := by
  unfold jsonArrayGet at h ⊢
  split at h
  · split_ifs at h with htype
    rw [if_pos htype]
    exact elementFrom_of_succ h
  · cases h

/-- The elements of an array are a first stretch of the numbers. -/
theorem jsonArrayGet_of_le {arr : Option ℕ} {n k el : ℕ} (h : jsonArrayGet toks arr n = some el)
    (hk : k ≤ n) : ∃ el', jsonArrayGet toks arr k = some el' := by
  induction n generalizing el with
  | zero =>
      obtain rfl : k = 0 := by omega
      exact ⟨el, h⟩
  | succ n ih =>
      rcases Nat.lt_or_ge n k with hlt | hge
      · obtain rfl : k = n + 1 := by omega
        exact ⟨el, h⟩
      · obtain ⟨el', hel⟩ := jsonArrayGet_of_succ h
        exact ih hel hge

theorem listsFrom_iff {ids : Option ℕ} {id : List UInt8} {fuel e : ℕ}
    (hfuel : toks.length < e + fuel) : listsFrom js toks ids id fuel e = true ↔
      ∃ n el, e ≤ n ∧ jsonArrayGet toks ids n = some el ∧ HasText js toks (some el) id := by
  induction fuel generalizing e with
  | zero =>
      refine ⟨fun h => (by cases h), ?_⟩
      rintro ⟨n, el, hle, hget, -⟩
      have := jsonArrayGet_lt hget
      omega
  | succ fuel ih =>
      rw [listsFrom]
      cases hget : jsonArrayGet toks ids e with
      | none =>
          refine ⟨fun h => (by cases h), ?_⟩
          rintro ⟨n, el, hle, hn, -⟩
          obtain ⟨el', hel⟩ := jsonArrayGet_of_le hn hle
          rw [hget] at hel
          cases hel
      | some el =>
          dsimp only
          split_ifs with heq
          · exact ⟨fun _ => ⟨e, el, le_rfl, hget, jsonEquals_iff.mp heq⟩, fun _ => rfl⟩
          · rw [ih (by omega)]
            constructor
            · rintro ⟨n, el', hle, hn, htext⟩
              exact ⟨n, el', by omega, hn, htext⟩
            · rintro ⟨n, el', hle, hn, htext⟩
              rcases Nat.eq_or_lt_of_le hle with rfl | hlt
              · rw [hget] at hn
                cases hn
                exact absurd (jsonEquals_iff.mpr htext) heq
              · exact ⟨n, el', hlt, hn, htext⟩

theorem digestLists_iff {d : Option ℕ} {key : String} {id : List UInt8} :
    digestLists js toks d key id = true ↔ Lists js toks (memberOf js toks d key) id := by
  rw [digestLists, listsFrom_iff (by omega)]
  constructor
  · rintro ⟨n, el, -, hget, htext⟩
    exact ⟨n, el, hget, htext⟩
  · rintro ⟨n, el, hget, htext⟩
    exact ⟨n, el, Nat.zero_le n, hget, htext⟩

/-! ## What should match -/

/-- A digest that lists the slot, and the data segment where `bound` asks for it, and that the key
    satisfies. The data segment is the first one, which the probe takes. -/
def DigestFor (p : Platform) (js : List UInt8) (toks : List JsonTok) (bound : Bool)
    (slotId mk : List UInt8) : Prop :=
  let digests := memberOf js toks (some 0) "digests"
  ∃ j < jsonObjectCount toks digests,
    Lists js toks (memberOf js toks (digestAt toks digests j) "keyslots") slotId ∧
    (bound = true → ∃ segment,
      HasText js toks (jsonObjectKeyAt toks (memberOf js toks (some 0) "segments") 0) segment ∧
      Lists js toks (memberOf js toks (digestAt toks digests j) "segments") segment) ∧
    digestSatisfied p js toks (digestAt toks digests j) mk = true

/-- **Slot `i` yields the key**, and it matches the container's digest; for LUKS2 one that lists
    the slot, and with `bound` also the data segment. -/
inductive Matched (p : Platform) (calls : ℕ → SlotCalls) (m : Medium) (info : LuksInfo)
    (pass : List UInt8) (bound : Bool) : ℕ → List UInt8 → Prop where
  | luks1 {hash : CryptoHash} {hdr : Buf l1HeaderLen} {i : ℕ} {mk : List UInt8}
      (version : info.version = 1) (named : cryptoHashByName info.hash = some hash)
      (read : m.read 0 l1HeaderLen = some hdr) (magic : slice hdr 0 6 = luksMagic)
      (index : i < l1NumSlots) (enabled : (readSlot hdr i).active = l1SlotEnabled)
      (key : slotKey p (calls i) m info (readSlot hdr i) hash pass = .ok mk)
      (digest : digestMatches p hdr hash mk = true) : Matched p calls m info pass bound i mk
  | luks2 {hdr : Luks2Header} {toks : List JsonTok} {i : ℕ} {slotId mk : List UInt8}
      (version : info.version = 2) (load : luks2Load p.machine m = some hdr)
      (parse : jsonParse hdr.json l2MaxTokens = .ok toks)
      (index : i < jsonObjectCount toks (memberOf hdr.json toks (some 0) "keyslots"))
      (id : jsonCopy hdr.json toks
        (jsonObjectKeyAt toks (memberOf hdr.json toks (some 0) "keyslots") i) 24 = some slotId)
      (key : luks2SlotKey p (calls i) m hdr.json toks (some (jsonSkip toks
        (jsonObjectKeyAt toks (memberOf hdr.json toks (some 0) "keyslots") i))) pass = .ok mk)
      (digest : DigestFor p hdr.json toks bound slotId mk) : Matched p calls m info pass bound i mk

/-- The slot yields a key of the container that is not the data segment's: no slot yields this key
    under a digest that lists both. -/
def Foreign (p : Platform) (calls : ℕ → SlotCalls) (m : Medium) (info : LuksInfo)
    (pass : List UInt8) (i : ℕ) : Prop :=
  ∃ mk, Matched p calls m info pass false i mk ∧ ¬ ∃ j, Matched p calls m info pass true j mk

/-- **What an unlock owes**: it returns a key exactly when there is a right one, and a right one. -/
structure Unlocks (p : Platform) (calls : ℕ → SlotCalls) (m : Medium) (info : LuksInfo)
    (pass : List UInt8) (r : Except LuksStatus (List UInt8)) : Prop where
  exact_when : (∃ mk, r = .ok mk) ↔ ∃ i mk, Matched p calls m info pass true i mk
  right : ∀ mk, r = .ok mk → ∃ i, Matched p calls m info pass true i mk

/-! ## What the code does -/

/-- The loop returns the key of the first slot that has one, whatever the others report. -/
theorem trySlots_range' {attempt : ℕ → Option (Except LuksStatus (List UInt8))} {s n : ℕ}
    {last : LuksStatus} : trySlots attempt (List.range' s n) last = .ok mk ↔
      ∃ i, s ≤ i ∧ i < s + n ∧ attempt i = some (.ok mk) ∧
        ∀ j, s ≤ j → j < i → ∀ k, attempt j ≠ some (.ok k) := by
  induction n generalizing s last with
  | zero =>
      refine ⟨fun h => (by cases h), ?_⟩
      rintro ⟨i, hlo, hhi, -⟩
      omega
  | succ n ih =>
      have hbehind (hnot : ∀ k, attempt s ≠ some (.ok k)) :
          (∃ i, s + 1 ≤ i ∧ i < s + 1 + n ∧ attempt i = some (.ok mk) ∧
            ∀ j, s + 1 ≤ j → j < i → ∀ k, attempt j ≠ some (.ok k)) ↔
          ∃ i, s ≤ i ∧ i < s + (n + 1) ∧ attempt i = some (.ok mk) ∧
            ∀ j, s ≤ j → j < i → ∀ k, attempt j ≠ some (.ok k) := by
        constructor
        · rintro ⟨i, hlo, hhi, hi, hfirst⟩
          refine ⟨i, by omega, by omega, hi, fun j hj hji => ?_⟩
          rcases Nat.eq_or_lt_of_le hj with rfl | hlt
          · exact hnot
          · exact hfirst j hlt hji
        · rintro ⟨i, hlo, hhi, hi, hfirst⟩
          rcases Nat.eq_or_lt_of_le hlo with rfl | hlt
          · exact absurd hi (hnot mk)
          · exact ⟨i, hlt, by omega, hi, fun j hj => hfirst j (by omega)⟩
      rw [List.range'_succ, trySlots]
      cases hs : attempt s with
      | none => exact ih.trans (hbehind (by simp [hs]))
      | some r =>
          cases r with
          | error e => exact ih.trans (hbehind (by simp [hs]))
          | ok k =>
              dsimp only
              constructor
              · intro h
                cases h
                exact ⟨s, le_rfl, by omega, hs, fun j hlo hhi => by omega⟩
              · rintro ⟨i, hlo, hhi, hi, hfirst⟩
                rcases Nat.eq_or_lt_of_le hlo with rfl | hlt
                · rw [hs] at hi
                  simpa using hi
                · exact absurd hs (hfirst s le_rfl hlt k)

theorem trySlots_range {attempt : ℕ → Option (Except LuksStatus (List UInt8))} {n : ℕ}
    {last : LuksStatus} : trySlots attempt (List.range n) last = .ok mk ↔
      ∃ i < n, attempt i = some (.ok mk) ∧ ∀ j < i, ∀ k, attempt j ≠ some (.ok k) := by
  rw [List.range_eq_range', trySlots_range']
  simp

/-- A digest that lists the slot is looked for, and nothing more. -/
theorem luks2DigestOk_iff {slotId : List UInt8} :
    luks2DigestOk p js toks (memberOf js toks (some 0) "digests") slotId mk = true ↔
      DigestFor p js toks false slotId mk := by
  simp [luks2DigestOk, DigestFor, digestLists_iff]

theorem DigestFor.weaken {bound : Bool} {slotId : List UInt8}
    (h : DigestFor p js toks bound slotId mk) : DigestFor p js toks false slotId mk := by
  obtain ⟨j, hj, hlists, -, hdigest⟩ := h
  exact ⟨j, hj, hlists, fun hbound => (by cases hbound), hdigest⟩

theorem Matched.weaken {bound : Bool} {i : ℕ} (h : Matched p calls m info pass bound i mk) :
    Matched p calls m info pass false i mk := by
  cases h with
  | luks1 version named read magic index enabled key digest =>
      exact .luks1 version named read magic index enabled key digest
  | luks2 version load parse index id key digest =>
      exact .luks2 version load parse index id key digest.weaken

/-- A LUKS1 digest is for the one key that there is. -/
theorem Matched.bind {i : ℕ} (h : Matched p calls m info pass false i mk)
    (hversion : info.version = 1) : Matched p calls m info pass true i mk := by
  cases h with
  | luks1 version named read magic index enabled key digest =>
      exact .luks1 version named read magic index enabled key digest
  | luks2 version => omega

theorem trySlot_ok {c : SlotCalls} {hdr : Buf l1HeaderLen} {slot : Luks1Slot} {hash : CryptoHash} :
    trySlot p c m hdr info slot hash pass = .ok mk ↔
      slotKey p c m info slot hash pass = .ok mk ∧ digestMatches p hdr hash mk = true := by
  unfold trySlot
  cases slotKey p c m info slot hash pass with
  | error e => simp
  | ok k =>
      dsimp only
      split_ifs with hdigest <;> simp
      · rintro rfl
        exact hdigest
      · rintro rfl
        exact Bool.eq_false_of_not_eq_true hdigest

theorem luks1Attempt_ok {hdr : Buf l1HeaderLen} {hash : CryptoHash} {i : ℕ} :
    luks1Attempt p calls m hdr info hash pass i = some (.ok mk) ↔
      (readSlot hdr i).active = l1SlotEnabled ∧
      slotKey p (calls i) m info (readSlot hdr i) hash pass = .ok mk ∧
      digestMatches p hdr hash mk = true := by
  unfold luks1Attempt
  generalize readSlot hdr i = slot
  by_cases henabled : slot.active = l1SlotEnabled
  · rw [if_neg (not_not.mpr henabled), Option.some.injEq, trySlot_ok]
    exact ⟨fun h => ⟨henabled, h⟩, fun h => h.2⟩
  · rw [if_pos henabled]
    exact ⟨fun h => (by cases h), fun h => absurd h.1 henabled⟩

theorem luks2Attempt_ok {i : ℕ} : luks2Attempt p calls m js toks pass i = some (.ok mk) ↔
    ∃ slotId, jsonCopy js toks
        (jsonObjectKeyAt toks (memberOf js toks (some 0) "keyslots") i) 24 = some slotId ∧
      luks2SlotKey p (calls i) m js toks (some (jsonSkip toks
        (jsonObjectKeyAt toks (memberOf js toks (some 0) "keyslots") i))) pass = .ok mk ∧
      luks2DigestOk p js toks (memberOf js toks (some 0) "digests") slotId mk = true := by
  unfold luks2Attempt
  dsimp only
  cases jsonCopy js toks (jsonObjectKeyAt toks (memberOf js toks (some 0) "keyslots") i) 24 with
  | none => simp
  | some slotId =>
      simp only [Option.some.injEq, exists_eq_left']
      unfold tryLuks2Slot
      generalize luks2SlotKey p (calls i) m js toks (some (jsonSkip toks
        (jsonObjectKeyAt toks (memberOf js toks (some 0) "keyslots") i))) pass = r
      cases r with
      | error e => simp
      | ok k =>
          dsimp only
          split_ifs with hdigest
          · constructor
            · intro h
              cases h
              exact ⟨rfl, hdigest⟩
            · exact fun h => h.1
          · refine ⟨fun h => (by cases h), fun h => ?_⟩
            obtain ⟨hk, hdigest'⟩ := h
            cases hk
            exact absurd hdigest' hdigest
theorem matched_luks1 {hash : CryptoHash} {hdr : Buf l1HeaderLen} {i : ℕ}
    (hversion : info.version = 1) (hnamed : cryptoHashByName info.hash = some hash)
    (hread : m.read 0 l1HeaderLen = some hdr) (hmagic : slice hdr 0 6 = luksMagic) :
    Matched p calls m info pass false i mk ↔
      i < l1NumSlots ∧ luks1Attempt p calls m hdr info hash pass i = some (.ok mk) := by
  rw [luks1Attempt_ok]
  constructor
  · intro h
    cases h with
    | luks1 version named read magic index enabled key digest =>
        obtain rfl := Option.some.inj (hnamed.symm.trans named)
        obtain rfl := Option.some.inj (hread.symm.trans read)
        exact ⟨index, enabled, key, digest⟩
    | luks2 version => omega
  · rintro ⟨index, enabled, key, digest⟩
    exact .luks1 hversion hnamed hread hmagic index enabled key digest

theorem matched_luks2 {hdr : Luks2Header} {i : ℕ} (hversion : info.version = 2)
    (hload : luks2Load p.machine m = some hdr) (hparse : jsonParse hdr.json l2MaxTokens = .ok toks) :
    Matched p calls m info pass false i mk ↔
      i < jsonObjectCount toks (memberOf hdr.json toks (some 0) "keyslots") ∧
        luks2Attempt p calls m hdr.json toks pass i = some (.ok mk) := by
  rw [luks2Attempt_ok]
  constructor
  · intro h
    cases h with
    | luks1 version => omega
    | luks2 version load parse index id key digest =>
        obtain rfl := Option.some.inj (hload.symm.trans load)
        obtain rfl := Except.ok.inj (hparse.symm.trans parse)
        exact ⟨index, _, id, key, luks2DigestOk_iff.mpr digest⟩
  · rintro ⟨index, slotId, id, key, digest⟩
    exact .luks2 hversion hload hparse index id key (luks2DigestOk_iff.mp digest)

theorem vetted_hash (h : vetted info = (.ok, out)) : ∃ hash, cryptoHashByName out.hash = some hash := by
  unfold vetted supportedCipher at h
  split_ifs at h with hcipher hmode hkey hhash
  all_goals simp at h
  rw [← h]
  exact Option.ne_none_iff_exists'.mp hhash

theorem probeLuks1_hash {hdr : Buf l1HeaderLen} (h : probeLuks1 hdr out = (.ok, info)) :
    ∃ hash, cryptoHashByName info.hash = some hash := by
  unfold probeLuks1 at h
  dsimp only at h
  split_ifs at h
  · simp at h
  · simp at h
  · exact vetted_hash h

/-- What the unlock asks of a header again, the probe has asked. -/
theorem luksProbe_ok {mc : Machine} (h : luksProbe mc m = (.ok, info)) :
    (info.version = 1 ∧ (∃ hash, cryptoHashByName info.hash = some hash) ∧
      ∃ hdr, m.read 0 l1HeaderLen = some hdr ∧ slice hdr 0 6 = luksMagic) ∨
    (info.version = 2 ∧ mc.calloc = true ∧ ∃ hdr t toks, luks2Load mc m = some hdr ∧
      jsonParse hdr.json l2MaxTokens = .ok (t :: toks)) := by
  unfold luksProbe at h
  split at h
  · simp at h
  next hdr hread =>
    dsimp only at h
    split_ifs at h with hmagic hone htwo
    · simp at h
    · exact .inl ⟨probeLuks1_version h, probeLuks1_hash h, hdr, hread, not_not.mp hmagic⟩
    · unfold probeLuks2 at h
      split at h
      · simp at h
      next header hload =>
        dsimp only at h
        split_ifs at h with hcalloc
        · simp at h
        split at h
        · next t toks hparse =>
            exact .inr ⟨(probeMetadata_ok h).2, Bool.eq_true_of_not_eq_false hcalloc,
              header, t, toks, hload, hparse⟩
        · simp at h
    · simp at h

/-- The loop over slots that match as the attempts say. -/
theorem trySlots_matched {attempt : ℕ → Option (Except LuksStatus (List UInt8))} {n : ℕ}
    {last : LuksStatus} (h : ∀ i k, Matched p calls m info pass false i k ↔
      i < n ∧ attempt i = some (.ok k)) : trySlots attempt (List.range n) last = .ok mk ↔
      ∃ i, Matched p calls m info pass false i mk ∧
        ∀ j < i, ∀ k, ¬ Matched p calls m info pass false j k := by
  rw [trySlots_range]
  constructor
  · rintro ⟨i, hi, hok, hfirst⟩
    exact ⟨i, (h i mk).mpr ⟨hi, hok⟩, fun j hj k hjk => hfirst j hj k ((h j k).mp hjk).2⟩
  · rintro ⟨i, hok, hfirst⟩
    obtain ⟨hi, hattempt⟩ := (h i mk).mp hok
    exact ⟨i, hi, hattempt, fun j hj k hjk => hfirst j hj k ((h j k).mpr ⟨by omega, hjk⟩)⟩

theorem jsonObjectCount_none : jsonObjectCount toks none = 0 := rfl

/-- A container without key slots or without digests has no slot that matches. -/
theorem not_matched_without {bound : Bool} {hdr : Luks2Header} {i : ℕ}
    (hversion : info.version = 2) (hload : luks2Load p.machine m = some hdr)
    (hparse : jsonParse hdr.json l2MaxTokens = .ok toks)
    (h : memberOf hdr.json toks (some 0) "keyslots" = none ∨
      memberOf hdr.json toks (some 0) "digests" = none) :
    ¬ Matched p calls m info pass bound i mk := by
  intro hmatched
  cases hmatched with
  | luks1 version => omega
  | luks2 version load parse index id key digest =>
      obtain rfl := Option.some.inj (hload.symm.trans load)
      obtain rfl := Except.ok.inj (hparse.symm.trans parse)
      rcases h with hslots | hdigests
      · rw [hslots, jsonObjectCount_none] at index
        omega
      · obtain ⟨j, hj, -⟩ := digest
        rw [hdigests, jsonObjectCount_none] at hj
        omega

/-- **The unlock returns the key of the first slot that matches a digest listing the slot.** What
    the slots before it fail with does not matter. -/
theorem luksUnlock_ok (h : luksProbe p.machine m = (.ok, info)) :
    luksUnlock p calls m info pass = .ok mk ↔ ∃ i, Matched p calls m info pass false i mk ∧
      ∀ j < i, ∀ k, ¬ Matched p calls m info pass false j k := by
  unfold luksUnlock
  rcases luksProbe_ok h with ⟨hversion, ⟨hash, hnamed⟩, hdr, hread, hmagic⟩ 
    | ⟨hversion, hcalloc, hdr, t, toks, hload, hparse⟩
  · rw [if_neg (by omega), if_neg (not_not.mpr hversion), hnamed]
    dsimp only
    rw [hread]
    dsimp only
    rw [if_neg (not_not.mpr hmagic)]
    exact trySlots_matched fun i k => matched_luks1 hversion hnamed hread hmagic
  · rw [if_pos hversion, unlockLuks2]
    rw [hload]
    dsimp only
    rw [hcalloc, if_neg (by decide), hparse]
    dsimp only
    by_cases hmembers : memberOf hdr.json (t :: toks) (some 0) "keyslots" = none ∨
        memberOf hdr.json (t :: toks) (some 0) "digests" = none
    · rw [if_pos hmembers]
      refine ⟨fun h => (by cases h), ?_⟩
      rintro ⟨i, hi, -⟩
      exact absurd hi (not_matched_without hversion hload hparse hmembers)
    · rw [if_neg hmembers]
      exact trySlots_matched fun i k => matched_luks2 hversion hload hparse

/-- Some slot matches first if any does. -/
theorem first_matched {i : ℕ} (h : Matched p calls m info pass false i mk) :
    ∃ j k, j ≤ i ∧ Matched p calls m info pass false j k ∧
      ∀ j' < j, ∀ k, ¬ Matched p calls m info pass false j' k := by
  induction i using Nat.strongRecOn generalizing mk with
  | ind i ih =>
      by_cases hbefore : ∃ j < i, ∃ k, Matched p calls m info pass false j k
      · obtain ⟨j, hj, k, hjk⟩ := hbefore
        obtain ⟨j', k', hle, hfirst⟩ := ih j hj hjk
        exact ⟨j', k', by omega, hfirst⟩
      · exact ⟨i, mk, le_rfl, h, fun j hj k hjk => hbefore ⟨j, hj, k, hjk⟩⟩

/-- **The unlock is right unless a foreign slot comes first**: the result is what an unlock owes
    just when every slot that opens a key other than the data segment's stands behind another slot
    that the passphrase opens. -/
theorem unlock_right_iff (h : luksProbe p.machine m = (.ok, info)) :
    Unlocks p calls m info pass (luksUnlock p calls m info pass) ↔
      ∀ i, Foreign p calls m info pass i → ∃ j < i, ∃ k, Matched p calls m info pass false j k := by
  constructor
  · rintro hunlocks i ⟨mk, hmatched, hforeign⟩
    by_contra hfirst
    have hok : luksUnlock p calls m info pass = .ok mk :=
      (luksUnlock_ok h).mpr ⟨i, hmatched, fun j hj k hjk => hfirst ⟨j, hj, k, hjk⟩⟩
    exact hforeign (hunlocks.right mk hok)
  · intro hbehind
    have hright (mk : List UInt8) (hok : luksUnlock p calls m info pass = .ok mk) :
        ∃ i, Matched p calls m info pass true i mk := by
      obtain ⟨i, hmatched, hfirst⟩ := (luksUnlock_ok h).mp hok
      by_contra hforeign
      obtain ⟨j, hj, k, hjk⟩ := hbehind i ⟨mk, hmatched, hforeign⟩
      exact hfirst j hj k hjk
    refine ⟨⟨?_, ?_⟩, hright⟩
    · rintro ⟨mk, hok⟩
      obtain ⟨i, hi⟩ := hright mk hok
      exact ⟨i, mk, hi⟩
    · rintro ⟨i, mk, hmatched⟩
      obtain ⟨j, k, -, hfirst⟩ := first_matched hmatched.weaken
      exact ⟨k, (luksUnlock_ok h).mpr ⟨j, hfirst⟩⟩

/-- A LUKS1 container has no foreign slot. -/
theorem not_foreign_luks1 {i : ℕ} (hversion : info.version = 1) :
    ¬ Foreign p calls m info pass i := by
  rintro ⟨mk, hmatched, hforeign⟩
  exact hforeign ⟨i, hmatched.bind hversion⟩

/-! ## A slot that is not bound to the segment -/

/-- A platform to run: the KDFs give the password back and the cipher XORs its key in. -/
def xorPlatform : Platform where
  machine := plainMachine
  aes key := (maskBlock_involutive fun i => key.getD i 0).toPerm
  pbkdf2 _ password _ _ n := some fun i : Fin n => password.getD i 0
  argon2 _ _ _ _ password _ n := some fun i : Fin n => password.getD i 0

/-- Calls that all succeed. -/
def smoothCalls : SlotCalls where
  material := true
  derived := true
  cryptors := true
  ecb _ _ := false
  merge := true

/-- A container with one key slot, which the passphrase `abc` opens, and one digest, which is for
    this slot and for the segments listed. -/
def oneSlot (segments : List (List UInt8)) : List UInt8 :=
  jsonObject [
    ("segments", jsonObject [("0", cryptSegment)]),
    ("keyslots", jsonObject [("0", jsonObject [
      ("type", quoted "luks2"), ("key_size", ascii "32"),
      ("af", jsonObject [("stripes", ascii "1"), ("hash", quoted "sha1")]),
      ("area", jsonObject [("offset", quoted "8192"), ("size", quoted "32"),
        ("encryption", quoted "aes-xts-plain64")]),
      ("kdf", jsonObject [("type", quoted "pbkdf2"), ("hash", quoted "sha1"),
        ("salt", quoted "AAAA"), ("iterations", ascii "1")])])]),
    ("digests", jsonObject [("0", jsonObject [
      ("type", quoted "pbkdf2"), ("keyslots", jsonArray [quoted "0"]),
      ("segments", jsonArray segments), ("hash", quoted "sha1"), ("salt", quoted "AAAA"),
      ("digest", quoted "YWJj"), ("iterations", ascii "1")])])]

/-- What an unlock of the container gives when it comes to the document. -/
def opened (recorded : UInt8) (js : List UInt8) : Option (List UInt8) :=
  match jsonParse js l2MaxTokens with
  | .ok toks =>
    match luks2Attempt xorPlatform (fun _ => smoothCalls) (container plainMachine recorded js) js
        toks (ascii "abc") 0 with
    | some (.ok mk) => some mk
    | _ => none
  | .error _ => none

/-- Metadata whose first slot has an id, and whose digests list no segment. -/
def unbound (js : List UInt8) : Bool :=
  match jsonParse js l2MaxTokens with
  | .ok toks =>
    let digests := memberOf js toks (some 0) "digests"
    jsonObjectCount toks (memberOf js toks (some 0) "keyslots") ≠ 0 &&
    (List.range (jsonObjectCount toks digests)).all fun j =>
      jsonArrayGet toks (memberOf js toks (digestAt toks digests j) "segments") 0 = none
  | .error _ => false

theorem opened_eq_some {recorded : UInt8} (h : opened recorded js = some mk)
    (hparse : jsonParse js l2MaxTokens = .ok toks) :
    luks2Attempt xorPlatform (fun _ => smoothCalls) (container plainMachine recorded js) js toks
      (ascii "abc") 0 = some (.ok mk) := by
  unfold opened at h
  rw [hparse] at h
  dsimp only at h
  split at h
  · next k hk =>
      cases h
      exact hk
  · cases h

/-- A list that holds an id is not empty. -/
theorem Lists.first {ids : Option ℕ} {id : List UInt8} (h : Lists js toks ids id) :
    jsonArrayGet toks ids 0 ≠ none := by
  obtain ⟨e, el, hget, -⟩ := h
  obtain ⟨el', hel⟩ := jsonArrayGet_of_le hget (Nat.zero_le e)
  simp [hel]

/-- A container whose digests list no segment has no right key. -/
theorem not_matched_unbound {hdr : Luks2Header} {i : ℕ} (hversion : info.version = 2)
    (hload : luks2Load p.machine m = some hdr) (hparse : jsonParse hdr.json l2MaxTokens = .ok toks)
    (h : ∀ j < jsonObjectCount toks (memberOf hdr.json toks (some 0) "digests"),
      jsonArrayGet toks (memberOf hdr.json toks
        (digestAt toks (memberOf hdr.json toks (some 0) "digests") j) "segments") 0 = none) :
    ¬ Matched p calls m info pass true i mk := by
  intro hmatched
  cases hmatched with
  | luks1 version => omega
  | luks2 version load parse index id key digest =>
      obtain rfl := Option.some.inj (hload.symm.trans load)
      obtain rfl := Except.ok.inj (hparse.symm.trans parse)
      obtain ⟨j, hj, -, hbound, -⟩ := digest
      obtain ⟨segment, -, hlists⟩ := hbound rfl
      exact hlists.first (h j hj)

/-- The first slot's key is returned whenever it yields one. -/
theorem luksUnlock_first {hdr : Luks2Header} (hprobe : luksProbe p.machine m = (.ok, info))
    (hversion : info.version = 2) (hload : luks2Load p.machine m = some hdr)
    (hparse : jsonParse hdr.json l2MaxTokens = .ok toks)
    (hslots : jsonObjectCount toks (memberOf hdr.json toks (some 0) "keyslots") ≠ 0)
    (h : luks2Attempt p calls m hdr.json toks pass 0 = some (.ok mk)) :
    luksUnlock p calls m info pass = .ok mk := by
  have hmatched := (matched_luks2 hversion hload hparse).mpr ⟨Nat.pos_of_ne_zero hslots, h⟩
  exact (luksUnlock_ok hprobe).mpr ⟨0, hmatched, fun j hj => absurd hj (Nat.not_lt_zero j)⟩

/-- **A key is accepted that is not the data segment's**: the container's only slot opens a key
    whose digest lists no segment, and the unlock returns it. -/
theorem foreign_key_accepted : ¬ ∀ (p : Platform) (calls : ℕ → SlotCalls) (m : Medium)
    (info : LuksInfo) (pass : List UInt8), luksProbe p.machine m = (.ok, info) →
      Unlocks p calls m info pass (luksUnlock p calls m info pass) := by
  intro hall
  have hlen : (oneSlot []).length < 4096 := by decide +kernel
  have hnul : ∀ c ∈ oneSlot [], c ≠ 0 := by decide +kernel
  have haccepted : accepted (oneSlot []) = true := by decide +kernel
  have hopened : (opened 0 (oneSlot [])).isSome = true := by decide +kernel
  have hunbound : unbound (oneSlot []) = true := by decide +kernel
  generalize oneSlot [] = js at *
  obtain ⟨info, toks, hprobe, hversion, hparse⟩ :=
    container_accepted xorPlatform.machine 0 (fun _ _ => rfl) rfl hlen hnul haccepted
  obtain ⟨mk, hmk⟩ := Option.isSome_iff_exists.mp hopened
  have hattempt := opened_eq_some hmk hparse
  obtain ⟨hdr, hload, rfl⟩ : ∃ hdr, luks2Load xorPlatform.machine
      (container plainMachine 0 js) = some hdr ∧ hdr.json = js :=
    ⟨_, container_load fun _ _ => rfl, container_document hlen hnul⟩
  simp only [unbound, hparse, Bool.and_eq_true, decide_eq_true_eq, List.all_eq_true,
    List.mem_range] at hunbound
  have hok := luksUnlock_first hprobe hversion hload hparse hunbound.1 hattempt
  obtain ⟨i, hright⟩ := (hall _ _ _ _ _ hprobe).right mk hok
  exact not_matched_unbound hversion hload hparse hunbound.2 hright

/-- With the segment in the digest's list, the unlock of the same container is right. -/
theorem unlock_right_bound : ∃ info, luksProbe xorPlatform.machine
    (container plainMachine 0 (oneSlot [quoted "0"])) = (.ok, info) ∧
      (Unlocks xorPlatform (fun _ => smoothCalls) (container plainMachine 0 (oneSlot [quoted "0"]))
        info (ascii "abc") (luksUnlock xorPlatform (fun _ => smoothCalls)
          (container plainMachine 0 (oneSlot [quoted "0"])) info (ascii "abc")) ↔
      ∀ i, Foreign xorPlatform (fun _ => smoothCalls)
        (container plainMachine 0 (oneSlot [quoted "0"])) info (ascii "abc") i →
          ∃ j < i, ∃ k, Matched xorPlatform (fun _ => smoothCalls)
            (container plainMachine 0 (oneSlot [quoted "0"])) info (ascii "abc") false j k) := by
  have hlen : (oneSlot [quoted "0"]).length < 4096 := by decide +kernel
  have hnul : ∀ c ∈ oneSlot [quoted "0"], c ≠ 0 := by decide +kernel
  have haccepted : accepted (oneSlot [quoted "0"]) = true := by decide +kernel
  obtain ⟨info, -, hprobe, -, -⟩ :=
    container_accepted xorPlatform.machine 0 (fun _ _ => rfl) rfl hlen hnul haccepted
  exact ⟨info, hprobe, unlock_right_iff hprobe⟩

end Luks
