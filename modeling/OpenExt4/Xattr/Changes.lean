import OpenExt4.Xattr.Entries

set_option autoImplicit false

/-! # What a change does to an area

Each step of `ext4_xattr_set_entry` byte by byte, and what becomes of the other entries: where they
stand, and where their values are. -/

namespace Ext4.Xattr

open Bytes

variable {n : ℕ} {buf buf' : Buf n} {a : Area} {p c last m vo vs : ℕ} {ps : List ℕ}

/-! ## Chains that move -/

/-- A chain whose bytes stand `d` lower in another buffer. -/
theorem Entries.shift (h : Entries buf p ps last) {d : ℕ} (hd : d ≤ p)
    (hsame : ∀ x, p ≤ x → x < last + 4 → get8 buf' (x - d) = get8 buf x) :
    Entries buf' (p - d) (ps.map (· - d)) (last - d) := by
  have hword {q w : ℕ} (hq : p ≤ q) (hw : q + w ≤ last + 4) :
      getLE w buf' (q - d) = getLE w buf q := by
    refine getLE_shift fun i hi => ?_
    rw [← hsame (q + i) (by omega) (by omega)]
    congr 1
    omega
  induction h with
  | @nil p hlast =>
      have hmark : getLE 4 buf' (p - d) = getLE 4 buf p := hword le_rfl le_rfl
      exact .nil (hmark.trans hlast)
  | @cons p ps last hent hrest ih =>
      have hnext := le_next buf p
      have hle := hrest.le
      have hfirst : getLE 4 buf' (p - d) = getLE 4 buf p := hword le_rfl (by omega)
      have hlen : nameLen buf' (p - d) = nameLen buf p :=
        congrArg UInt8.toNat (hsame p le_rfl (by omega))
      have hnext' : next buf' (p - d) = next buf p - d := by
        rw [next, next, hlen]
        omega
      have htail := ih (by omega) (fun x hlo hhi => hsame x (by omega) hhi)
        fun hq hw => hword (by omega) hw
      refine .cons (fun hlast => hent (hfirst.symm.trans hlast)) ?_
      rw [hnext']
      exact htail

/-- A chain is determined by its bytes. -/
theorem Entries.of_agree (h : Entries buf p ps last)
    (hsame : ∀ x, p ≤ x → x < last + 4 → get8 buf' x = get8 buf x) : Entries buf' p ps last := by
  simpa using h.shift (Nat.zero_le p) (by simpa using hsame)

/-- The entries from the first of `l₂` on, or the marker. -/
theorem Entries.tail {l₁ l₂ : List ℕ} (h : Entries buf p (l₁ ++ l₂) last) :
    Entries buf (l₂.headD last) l₂ last := by
  induction l₁ generalizing p with
  | nil =>
      rw [List.nil_append] at h
      cases h with
      | nil hlast => exact .nil hlast
      | cons hent hrest => exact .cons hent hrest
  | cons q l₁ ih =>
      cases h with
      | cons _ hrest => exact ih hrest

/-- Another tail behind the entries of `l₁`. -/
theorem Entries.withTail {l₁ l₂ l₂' : List ℕ} {last' : ℕ} (h : Entries buf p (l₁ ++ l₂) last)
    (hsame : ∀ x < l₂.headD last, get8 buf' x = get8 buf x)
    (htail : Entries buf' (l₂.headD last) l₂' last') : Entries buf' p (l₁ ++ l₂') last' := by
  induction l₁ generalizing p with
  | nil =>
      have hhead : l₂.headD last = p := by
        cases h <;> rfl
      rw [hhead] at htail
      exact htail
  | cons q l₁ ih =>
      cases h with
      | cons hent hrest =>
          have hle := hrest.tail.le
          have hhead := hrest
          have hnext := le_next buf q
          have hbound : next buf q ≤ l₂.headD last := by
            cases l₂ with
            | nil => exact hrest.le
            | cons c l₂ => exact (hrest.mem (c := c) (by simp)).1
          have hlen : nameLen buf' q = nameLen buf q :=
            congrArg UInt8.toNat (hsame q (by omega))
          have hmark : getLE 4 buf' q = getLE 4 buf q :=
            getLE_congr fun i _ hi => hsame i (by omega)
          refine .cons (fun hlast => hent (hmark.symm.trans hlast)) ?_
          rw [next, hlen]
          exact ih hrest

/-! ## The data part -/

/-- What the bytes from the least offset on are once `vs` bytes at offset `vo` are gone and `v`
    stands below the others. -/
def settled (a : Area) (buf : Buf n) (m vo vs : ℕ) (v : List UInt8) (x : ℕ) : UInt8 :=
  if x < a.base + m + vs then
    if a.base + m + vs ≤ x + xattrSize v.length then
      v.getD (x + xattrSize v.length - (a.base + m + vs)) 0
    else 0
  else if x < a.base + vo + vs then get8 buf (x - vs)
  else get8 buf x

/-- The offset of a value after `vs` bytes at `vo` are gone. -/
def adjusted (vo vs o : ℕ) : ℕ := if o < vo then o + vs else o

theorem le_xattrSize (size : ℕ) : size ≤ xattrSize size := by
  unfold xattrSize
  omega

theorem removeData_ok (hm : m ≤ vo) (hvo : vo ≠ 0) (hstart : a.start ≤ a.base)
    (hn : a.base + vo + vs ≤ n) :
    ∃ F : Buf n, removeData a buf m vo vs = .ok (F, m + vs) ∧
      (∀ x < a.base + m, get8 F x = get8 buf x) ∧
      ∀ x, a.base + m ≤ x → get8 F x = settled a buf m vo vs [] x := by
  refine ⟨patch (patch buf (a.base + m + vs) (vo - m) fun i => get8 buf (a.base + m + i))
    (a.base + m) vs fun _ => 0, ?_, ?_, ?_⟩
  · rw [removeData, if_neg hvo, sub_bind hm, touch_bind (by omega) (by omega),
      touch_bind (by omega) (by omega), touch_bind (by omega) (by omega)]
  · intro x hx
    rw [get8_patch_of_disjoint (by omega), get8_patch_of_disjoint (by omega)]
  · intro x hx
    have hsize : xattrSize ([] : List UInt8).length = 0 := rfl
    rw [settled, hsize]
    by_cases hgap : x < a.base + m + vs
    · rw [if_pos hgap, if_neg (by omega), get8_patch_of_mem (by omega) hx hgap]
    · rw [if_neg hgap, get8_patch_of_disjoint (by omega)]
      by_cases hmoved : x < a.base + vo + vs
      · rw [if_pos hmoved, get8_patch_of_mem (by omega) (by omega) (by omega)]
        congr 1
        omega
      · rw [if_neg hmoved, get8_patch_of_disjoint (by omega)]

/-- A value whose place, in words, does not end in the area is removed with an access behind it. -/
theorem removeData_outside (hm : m ≤ vo) (hvo : vo ≠ 0) (hvs : vs ≠ 0)
    (hstart : a.start ≤ a.base) (hn : n < a.base + vo + vs) :
    removeData a buf m vo vs = .error .outside := by
  rw [removeData, if_neg hvo, sub_bind hm]
  by_cases hlowest : vo - m = 0
  · rw [hlowest, touch_bind_none, touch_bind_none, touch_bind_error (by omega) hvs]
  · by_cases hread : a.base + vo ≤ n
    · rw [touch_bind (by omega) (by omega), touch_bind_error (by omega) hlowest]
    · rw [touch_bind_error (by omega) hlowest]

/-! ## The offsets -/

/-- The other entry at `c` stands at `c'` now, with its value's offset adjusted. -/
def OtherAt (buf' buf : Buf n) (vo vs c' c : ℕ) : Prop :=
  SameEntry buf' c' buf c ∧ valueOffs buf' c' = adjusted vo vs (valueOffs buf c)

theorem adjusted_zero (o : ℕ) : adjusted 0 0 o = o := by
  unfold adjusted
  split <;> omega

theorem OtherAt.of_bytes {c' : ℕ}
    (h : ∀ i < 16 + nameLen buf c, get8 buf' (c' + i) = get8 buf (c + i)) :
    OtherAt buf' buf 0 0 c' c := by
  refine ⟨.of_bytes h, ?_⟩
  rw [adjusted_zero]
  refine getLE_shift fun i hi => ?_
  rw [Nat.add_assoc, Nat.add_assoc]
  exact h (2 + i) (by omega)

/-- A step that leaves an adjusted entry where its offset is as it is. -/
theorem OtherAt.after {F : Buf n} {c' c'' : ℕ} (h' : OtherAt F buf' 0 0 c'' c')
    (h : OtherAt buf' buf vo vs c' c) : OtherAt F buf vo vs c'' c := by
  refine ⟨h'.1.trans h.1, ?_⟩
  rw [h'.2, adjusted_zero, h.2]

/-- One turn of the loop that adjusts the offsets. -/
def adjustEntry (buf : Buf n) (vo vs p : ℕ) : Buf n :=
  if valueOffs buf p < vo then putLE 2 buf (p + 2) (valueOffs buf p + vs) else buf

theorem get8_adjustEntry {x : ℕ} (hx : x ≠ p + 2) (hx' : x ≠ p + 3) :
    get8 (adjustEntry buf vo vs p) x = get8 buf x := by
  unfold adjustEntry
  split
  · exact get8_patch_of_disjoint (by omega)
  · rfl

theorem otherAt_adjustEntry (buf : Buf n) (vo vs : ℕ) (hn : p + 4 ≤ n)
    (hfit : valueOffs buf p < vo → valueOffs buf p + vs < 65536) :
    OtherAt (adjustEntry buf vo vs p) buf vo vs p p := by
  refine ⟨fun i _ h2 h3 => get8_adjustEntry (by omega) (by omega), ?_⟩
  unfold adjustEntry adjusted
  split
  · next hlt =>
      have hread := getLE_putLE (b := buf) (w := 2) (o := p + 2) (v := valueOffs buf p + vs)
        (by omega)
      rw [valueOffs, hread]
      exact Nat.mod_eq_of_lt (hfit hlt)
  · rfl

/-- An entry does not become the marker. -/
theorem OtherAt.not_isLast {c' : ℕ} (h : OtherAt buf' buf vo vs c' c)
    (hent : ¬ isLastEntry buf c) : ¬ isLastEntry buf' c' := by
  rw [isLastEntry_iff] at hent ⊢
  rw [h.1.nameLen, h.1.nameIndex, h.2]
  unfold adjusted
  split <;> omega

/-- **The adjusting loop** adjusts each entry's offset and changes nothing else. -/
theorem Entries.adjustFrom {fuel : ℕ} (vo vs : ℕ) (h : Entries buf p ps last) (hstart : a.start ≤ p)
    (hn : last + 4 ≤ n) (hfuel : ps.length < fuel)
    (hfit : ∀ c ∈ ps, valueOffs buf c < vo → valueOffs buf c + vs < 65536) :
    ∃ F : Buf n, adjustFrom a vo vs fuel buf p = .ok (F, last) ∧ Entries F p ps last ∧
      (∀ c ∈ ps, OtherAt F buf vo vs c c) ∧
      ∀ x, x < p ∨ last ≤ x → get8 F x = get8 buf x := by
  induction ps generalizing buf p fuel with
  | nil =>
      obtain ⟨fuel, rfl⟩ := Nat.exists_eq_add_one_of_ne_zero (Nat.ne_zero_of_lt hfuel)
      cases h with
      | nil hlast =>
          refine ⟨buf, ?_, .nil hlast, by simp, fun x _ => rfl⟩
          rw [Xattr.adjustFrom, touch_bind hstart hn, if_pos hlast]
  | cons q ps ih =>
      obtain ⟨fuel, rfl⟩ := Nat.exists_eq_add_one_of_ne_zero (Nat.ne_zero_of_lt hfuel)
      cases h with
      | cons hent hrest =>
          have hnext := le_next buf q
          have hle := hrest.le
          -- the rest of the chain is not touched by this turn
          have hlater : ∀ x, next buf q ≤ x → get8 (adjustEntry buf vo vs q) x = get8 buf x :=
            fun x hx => get8_adjustEntry (by omega) (by omega)
          have hrest' : Entries (adjustEntry buf vo vs q) (next buf q) ps last :=
            hrest.of_agree fun x hlo _ => hlater x hlo
          have hsame : ∀ c ∈ ps, OtherAt (adjustEntry buf vo vs q) buf 0 0 c c := by
            intro c hc
            have hin := hrest.mem hc
            exact .of_bytes fun i _ => hlater _ (by omega)
          have hhere := otherAt_adjustEntry buf vo vs (by omega)
            (hfit q List.mem_cons_self)
          have hnext' : next (adjustEntry buf vo vs q) q = next buf q := by
            rw [next, next, hhere.1.nameLen]
          have hoffs : ∀ c ∈ ps, valueOffs (adjustEntry buf vo vs q) c = valueOffs buf c := by
            intro c hc
            rw [(hsame c hc).2, adjusted_zero]
          have hshort : ps.length < fuel := by simpa using hfuel
          obtain ⟨F, hrun, hchain, hothers, hframe⟩ := ih hrest' (by omega) hshort
            fun c hc hlt => by
              rw [hoffs c hc] at hlt ⊢
              exact hfit c (List.mem_cons_of_mem _ hc) hlt
          have hkept : ∀ x < next buf q, get8 F x = get8 (adjustEntry buf vo vs q) x :=
            fun x hx => hframe x (.inl hx)
          have hhere' : OtherAt F buf vo vs q q := by
            refine OtherAt.after (.of_bytes fun i hi => hkept _ ?_) hhere
            rw [hhere.1.nameLen] at hi
            omega
          refine ⟨F, ?_, .cons (hhere'.not_isLast hent) ?_, ?_, ?_⟩
          · rw [Xattr.adjustFrom, touch_bind hstart (by omega), if_neg hent,
              touch_bind hstart (by omega)]
            change Xattr.adjustFrom a vo vs fuel (adjustEntry buf vo vs q)
              (next (adjustEntry buf vo vs q) q) = _
            rw [hnext', hrun]
          · rw [next, hhere'.1.nameLen]
            exact hchain
          · intro c hc
            rcases List.mem_cons.mp hc with rfl | hc
            · exact hhere'
            · obtain ⟨hentry, hadjusted⟩ := hothers c hc
              exact ⟨hentry.trans (hsame c hc).1, by rw [hadjusted, hoffs c hc]⟩
          · intro x hx
            rw [hframe x (by omega), get8_adjustEntry (by omega) (by omega)]

end Ext4.Xattr
