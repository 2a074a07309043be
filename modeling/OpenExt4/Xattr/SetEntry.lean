import OpenExt4.Xattr.Changes

set_option autoImplicit false

/-! # The steps of `ext4_xattr_set_entry`

The old value goes, then the entry is reused, dropped, or made at the end of the others. Each of
these runs inside of the area, and tells where the other entries are afterwards. -/

namespace Ext4.Xattr

open Bytes

variable {n : ℕ} {buf buf' : Buf n} {a : Area} {p c last m vo vs : ℕ} {ps : List ℕ}
  {index : UInt8} {name v : List UInt8}

/-! ## The layout -/

theorem least_cases (buf : Buf n) (ps : List ℕ) (m : ℕ) :
    least buf ps m = m ∨ ∃ c ∈ ps, valueSize buf c ≠ 0 ∧ least buf ps m = valueOffs buf c := by
  induction ps generalizing m with
  | nil => exact .inl rfl
  | cons p ps ih =>
      have hstep : lessOffs buf p m = m ∨
          valueSize buf p ≠ 0 ∧ lessOffs buf p m = valueOffs buf p := by
        unfold lessOffs
        split
        · next h => exact .inr ⟨h.1, rfl⟩
        · exact .inl rfl
      rcases ih (lessOffs buf p m) with hleast | ⟨c, hc, hsize, hleast⟩
      · rcases hstep with hsame | ⟨hsize, hoffs⟩
        · exact .inl (hleast.trans hsame)
        · exact .inr ⟨p, List.mem_cons_self, hsize, hleast.trans hoffs⟩
      · exact .inr ⟨c, List.mem_cons_of_mem _ hc, hsize, hleast⟩

/-- The least offset of the values of an area. -/
def minOffs (a : Area) (buf : Buf n) (ps : List ℕ) : ℕ := least buf ps (n - a.base)

theorem Laid.le_last (h : Laid a buf ps last) : a.base ≤ last := h.base_le.trans h.chain.le

/-- The values lie behind the entries. -/
theorem Laid.le_minOffs (h : Laid a buf ps last) : last + 4 ≤ a.base + minOffs a buf ps := by
  have hbase := h.le_last
  have hroom := h.room
  rcases least_cases buf ps (n - a.base) with hleast | ⟨c, hc, hsize, hleast⟩
  · rw [minOffs, hleast]
    omega
  · rw [minOffs, hleast]
    exact h.below c hc hsize

theorem Laid.minOffs_le (h : Laid a buf ps last) : a.base + minOffs a buf ps ≤ n := by
  have hleast := least_le buf ps (n - a.base)
  have hbase := h.le_last
  have hroom := h.room
  unfold minOffs
  omega

/-- A value has no offset if and only if it has no size. -/
theorem Laid.offs_eq_zero (h : Laid a buf ps last) (hc : c ∈ ps) :
    valueOffs buf c = 0 ↔ valueSize buf c = 0 := by
  refine ⟨fun hoffs => ?_, h.empty c hc⟩
  by_contra hsize
  have hbelow := h.below c hc hsize
  have hbase := h.le_last
  omega

theorem Laid.minOffs_le_offs (h : Laid a buf ps last) (hc : c ∈ ps) (hoffs : valueOffs buf c ≠ 0) :
    minOffs a buf ps ≤ valueOffs buf c :=
  least_le_offs hc (mt (h.offs_eq_zero hc).mpr hoffs)

theorem xattrSize_eq_zero {size : ℕ} : xattrSize size = 0 ↔ size = 0 := by
  unfold xattrSize
  omega

/-! ## The old value -/

theorem OtherAt.before {F : Buf n} {c' c'' : ℕ} (h' : OtherAt F buf' vo vs c'' c')
    (h : OtherAt buf' buf 0 0 c' c) : OtherAt F buf vo vs c'' c := by
  refine ⟨h'.1.trans h.1, ?_⟩
  rw [h'.2, h.2, adjusted_zero]

/-- An entry of a chain of which no byte changes. -/
theorem Entries.otherAt (h : Entries buf p ps last) (hc : c ∈ ps)
    (hsame : ∀ x < last, get8 buf' x = get8 buf x) : OtherAt buf' buf 0 0 c c := by
  have hin := (h.mem hc).2.1
  have hnext := le_next buf c
  exact .of_bytes fun i _ => hsame _ (by omega)

/-- **The removal of the old value** moves those below it up, and adjusts their offsets. -/
theorem clearOld_ok (h : Laid a buf ps last) (hn : n ≤ 65536) (hp : p ∈ ps)
    (hvo : valueOffs buf p = vo) (hvs : xattrSize (valueSize buf p) = vs)
    (hfit : a.base + vo + vs ≤ n) :
    ∃ F : Buf n, clearOld a buf (some p) (minOffs a buf ps) last
        = .ok (F, minOffs a buf ps + vs, last) ∧ Entries F a.first ps last ∧
      (∀ c ∈ ps, OtherAt F buf vo vs c c) ∧
      ∀ x, a.base + minOffs a buf ps ≤ x →
        get8 F x = settled a buf (minOffs a buf ps) vo vs [] x := by
  have hmin := h.le_minOffs
  have hbase := h.le_last
  obtain ⟨G, hremove, hlow, hhigh⟩ : ∃ G : Buf n,
      removeData a buf (minOffs a buf ps) vo vs = .ok (G, minOffs a buf ps + vs) ∧
      (∀ x < a.base + minOffs a buf ps, get8 G x = get8 buf x) ∧
      ∀ x, a.base + minOffs a buf ps ≤ x →
        get8 G x = settled a buf (minOffs a buf ps) vo vs [] x := by
    by_cases hzero : vo = 0
    · have hsize : vs = 0 := by
        rw [← hvs, (h.offs_eq_zero hp).mp (hvo.trans hzero)]
        rfl
      subst hzero hsize
      refine ⟨buf, by rw [removeData, if_pos rfl, Nat.add_zero], fun x _ => rfl, fun x hx => ?_⟩
      rw [settled, if_neg (by omega), if_neg (by omega)]
    · exact removeData_ok (hvo ▸ h.minOffs_le_offs hp (hvo ▸ hzero)) hzero h.start_le hfit
  have hchain : Entries G a.first ps last := h.chain.of_agree fun x _ hx => hlow x (by omega)
  have hsame : ∀ c ∈ ps, OtherAt G buf 0 0 c c := fun c hc =>
    h.chain.otherAt hc fun x hx => hlow x (by omega)
  have hstart := h.start_le.trans h.base_le
  obtain ⟨F, hadjust, hentries, hothers, hframe⟩ := hchain.adjustFrom vo vs
    hstart h.room (h.chain.length_lt h.room) fun c hc hlt => by
      rw [(hsame c hc).2, adjusted_zero] at hlt ⊢
      omega
  refine ⟨F, ?_, hentries, fun c hc => (hothers c hc).before (hsame c hc), fun x hx => ?_⟩
  · simp only [clearOld, hvo, hvs, hremove, bind, Except.bind, hadjust]
  · rw [hframe x (.inr (by omega)), hhigh x hx]

/-! ## The new value -/

theorem getD_eq_zero_of_le {i : ℕ} (h : v.length ≤ i) : v.getD i 0 = 0 := by
  rw [List.getD_eq_getElem?_getD, List.getElem?_eq_none h]
  rfl

theorem writeValue_ok (hvo : vo ≠ 0) (hstart : a.start ≤ a.base)
    (hn : a.base + vo + xattrSize v.length ≤ n) :
    ∃ F : Buf n, writeValue a buf vo v = .ok F ∧
      (∀ x, x < a.base + vo ∨ a.base + vo + xattrSize v.length ≤ x → get8 F x = get8 buf x) ∧
      ∀ x, a.base + vo ≤ x → x < a.base + vo + xattrSize v.length →
        get8 F x = v.getD (x - (a.base + vo)) 0 := by
  have hlen := le_xattrSize v.length
  refine ⟨patch (patch buf (a.base + vo) v.length fun i => v.getD i 0) (a.base + vo + v.length)
    (xattrSize v.length - v.length) fun _ => 0, ?_, ?_, ?_⟩
  · rw [writeValue, if_neg hvo, touch_bind (by omega) (by omega),
      touch_bind (by omega) (by omega)]
  · intro x hx
    rw [get8_patch_of_disjoint (by omega), get8_patch_of_disjoint (by omega)]
  · intro x hlo hhi
    by_cases hpad : a.base + vo + v.length ≤ x
    · rw [get8_patch_of_mem (by omega) hpad (by omega), getD_eq_zero_of_le (by omega)]
    · rw [get8_patch_of_disjoint (by omega), get8_patch_of_mem (by omega) hlo (by omega)]

/-- Where the new value of `size` bytes goes. -/
def newOffs (m size : ℕ) : ℕ := if size ≠ 0 then m - xattrSize size else 0

theorem insertNew_some (h : xattrSize v.length ≤ m) :
    insertNew a buf (some p) m last index name v
      = (reuseEntry a buf p (newOffs m v.length) v.length >>= fun buf =>
          writeValue a buf (newOffs m v.length) v) := by
  unfold insertNew newOffs
  by_cases hsize : v.length ≠ 0
  · rw [if_pos hsize, if_pos hsize]
    exact sub_bind h
  · rw [if_neg hsize, if_neg hsize]
    rfl

theorem insertNew_none (h : xattrSize v.length ≤ m) :
    insertNew a buf none m last index name v
      = (newEntry a buf last index name (newOffs m v.length) v.length >>= fun buf =>
          writeValue a buf (newOffs m v.length) v) := by
  unfold insertNew newOffs
  by_cases hsize : v.length ≠ 0
  · rw [if_pos hsize, if_pos hsize]
    exact sub_bind h
  · rw [if_neg hsize, if_neg hsize]
    rfl

/-- The new value is written below the others, from the offset `m` down. -/
theorem writeNew_ok (hstart : a.start ≤ a.base) (hn : a.base + m ≤ n)
    (hroom : last + 4 + xattrSize v.length ≤ a.base + m) (hbase : a.base ≤ last) :
    ∃ F : Buf n, writeValue a buf (newOffs m v.length) v = .ok F ∧
      (∀ x, x < last + 4 ∨ a.base + m ≤ x → get8 F x = get8 buf x) ∧
      ∀ x, last + 4 ≤ x → x < a.base + m → get8 F x =
        if a.base + m ≤ x + xattrSize v.length then
          v.getD (x + xattrSize v.length - (a.base + m)) 0
        else get8 buf x := by
  by_cases hempty : v.length = 0
  · have hsize : xattrSize v.length = 0 := xattrSize_eq_zero.mpr hempty
    have hoffs : newOffs m v.length = 0 := if_neg (not_not.mpr hempty)
    refine ⟨buf, by rw [writeValue, if_pos hoffs], fun x _ => rfl, fun x _ hx => ?_⟩
    rw [if_neg (by omega)]
  · have hoffs : newOffs m v.length = m - xattrSize v.length := if_pos hempty
    have hpos : xattrSize v.length ≠ 0 := mt xattrSize_eq_zero.mp hempty
    obtain ⟨F, hrun, hframe, hvalue⟩ := @writeValue_ok n buf a
      (m - xattrSize v.length) v (by omega) hstart (by omega)
    refine ⟨F, by rw [hoffs, hrun], fun x hx => hframe x (by omega), fun x hlo hhi => ?_⟩
    split
    · next hin =>
        rw [hvalue x (by omega) (by omega)]
        congr 1
        omega
    · exact hframe x (by omega)

/-! ## The entry -/

theorem reuseEntry_ok (a : Area) (buf : Buf n) (vo len : ℕ) (hstart : a.start ≤ p) (hn : p + 16 ≤ n) :
    ∃ F : Buf n, reuseEntry a buf p vo len = .ok F ∧
      ∀ x, x < p + 2 ∨ p + 12 ≤ x → get8 F x = get8 buf x := by
  refine ⟨putLE 4 (putLE 2 buf (p + 2) vo) (p + 8) len, ?_, fun x hx => ?_⟩
  · rw [reuseEntry, touch_bind hstart hn]
  · rw [putLE, putLE, get8_patch_of_disjoint (by omega), get8_patch_of_disjoint (by omega)]

/-- Of two entries one ends in front of the other. -/
theorem Entries.side {q : ℕ} (h : Entries buf q ps last) (hc : c ∈ ps) (hp : p ∈ ps)
    (hne : c ≠ p) : next buf c ≤ p ∨ next buf p ≤ c := by
  have hpairs : ps.Pairwise fun c p => next buf c ≤ p ∨ next buf p ≤ c :=
    h.apart.imp fun hle => .inl hle
  have hsymm : Std.Symm fun c p => next buf c ≤ p ∨ next buf p ≤ c := ⟨fun _ _ => Or.symm⟩
  exact hpairs.forall hc hp hne

/-- The entry that is reused stays where it is, and so do the others. -/
theorem Entries.reused {q : ℕ} (buf' : Buf n) (h : Entries buf q ps last) (hp : p ∈ ps)
    (hindex : nameIndex buf p ≠ 0)
    (hsame : ∀ x, x < p + 2 ∨ p + 12 ≤ x → x < last + 4 → get8 buf' x = get8 buf x) :
    Entries buf' q ps last ∧ ∀ c ∈ ps, c ≠ p → OtherAt buf' buf 0 0 c c := by
  have hplast := (h.mem hp).2.1
  have hpnext := le_next buf p
  have hothers : ∀ c ∈ ps, c ≠ p → OtherAt buf' buf 0 0 c c := by
    intro c hc hne
    have hclast := (h.mem hc).2.1
    have hcnext := le_next buf c
    have hside := h.side hc hp hne
    exact .of_bytes fun i hi => hsame _ (by omega) (by omega)
  have hlen : nameLen buf' p = nameLen buf p :=
    congrArg UInt8.toNat (hsame p (.inl (by omega)) (by omega))
  have hindex' : nameIndex buf' p = nameIndex buf p := hsame (p + 1) (.inl (by omega)) (by omega)
  have hmark : isLastEntry buf' last :=
    (getLE_congr fun x hlo hhi => hsame x (by omega) (by omega)).trans h.isLast
  refine ⟨h.congr ?_ ?_ hmark, hothers⟩
  · intro c hc
    by_cases hne : c = p
    · rw [hne, hlen]
    · exact (hothers c hc hne).1.nameLen
  · intro c hc
    by_cases hne : c = p
    · rw [hne, isLastEntry_iff, hindex']
      rintro ⟨-, hzero, -⟩
      exact hindex (UInt8.toNat_inj.mp hzero)
    · exact (hothers c hc hne).not_isLast (h.mem hc).2.2

theorem dropEntry_ok {l₁ l₂ : List ℕ} {q : ℕ} (h : Entries buf q (l₁ ++ p :: l₂) last)
    (hstart : a.start ≤ q) (hn : last + 4 ≤ n) :
    ∃ F : Buf n, dropEntry a buf p last = .ok F ∧
      Entries F q (l₁ ++ l₂.map (· - (next buf p - p))) (last - (next buf p - p)) ∧
      (∀ c ∈ l₁, OtherAt F buf 0 0 c c) ∧
      (∀ c ∈ l₂, OtherAt F buf 0 0 (c - (next buf p - p)) c) ∧
      ∀ x, last + 4 ≤ x → get8 F x = get8 buf x := by
  have hnext := le_next buf p
  have hin := h.mem (List.mem_append_right l₁ List.mem_cons_self)
  obtain ⟨shift, hshift⟩ : ∃ d, next buf p = p + d := ⟨next buf p - p, by omega⟩
  have hd : next buf p - p = shift := by omega
  have hlen : last + 4 - next buf p = last + 4 - shift - p := by omega
  rw [hd]
  refine ⟨patch (patch buf p (last + 4 - next buf p) fun i => get8 buf (next buf p + i))
    (last + 4 - shift) shift fun _ => 0, ?_, ?_⟩
  · rw [dropEntry, sub_bind (by omega), touch_bind (by omega) (by omega),
      touch_bind (by omega) (by omega), hd, touch_bind (by omega) (by omega)]
  generalize hF : patch (patch buf p (last + 4 - next buf p) fun i => get8 buf (next buf p + i))
    (last + 4 - shift) shift (fun _ => 0) = F
  have hlow : ∀ x < p, get8 F x = get8 buf x := by
    intro x hx
    rw [← hF, get8_patch_of_disjoint (by omega), get8_patch_of_disjoint (by omega)]
  have hmoved : ∀ x, next buf p ≤ x → x < last + 4 → get8 F (x - shift) = get8 buf x := by
    intro x hlo hhi
    rw [← hF, get8_patch_of_disjoint (by omega),
      get8_patch_of_mem (by omega) (by omega) (by omega)]
    congr 1
    omega
  have htail : Entries buf (next buf p) l₂ last := by
    have hhere := h.tail
    cases hhere with
    | cons _ hrest => exact hrest
  have htail' : Entries F p (l₂.map (· - shift)) (last - shift) := by
    have hmove := htail.shift (d := shift) (by omega) hmoved
    rwa [hshift, Nat.add_sub_cancel] at hmove
  refine ⟨h.withTail hlow htail', fun c hc => ?_, fun c hc => ?_, fun x hx => ?_⟩
  · have hbefore : next buf c ≤ p :=
      (List.pairwise_append.mp h.apart).2.2 c hc p List.mem_cons_self
    have hcnext := le_next buf c
    exact .of_bytes fun i hi => hlow _ (by omega)
  · have hbehind := htail.mem hc
    have hcnext := le_next buf c
    refine .of_bytes fun i hi => ?_
    rw [← hmoved (c + i) (by omega) (by omega)]
    congr 1
    omega
  · rw [← hF, get8_patch_of_disjoint (by omega), get8_patch_of_disjoint (by omega)]

theorem toNat_ofNat_le (len : ℕ) : (UInt8.ofNat len).toNat ≤ len := by
  rw [UInt8.toNat_ofNat']
  exact Nat.mod_le _ _

theorem newEntry_ok {q : ℕ} (a : Area) (vo len : ℕ) (name : List UInt8) (h : Entries buf q ps last)
    (hindex : index ≠ 0) (hstart : a.start ≤ last)
    (hn : last + 4 + xattrLen name.length ≤ n) :
    ∃ F : Buf n, newEntry a buf last index name vo len = .ok F ∧
      (∃ last', Entries F q (ps ++ [last]) last' ∧ last' ≤ last + xattrLen name.length) ∧
      (∀ c ∈ ps, OtherAt F buf 0 0 c c) ∧
      ∀ x, x < last ∨ last + 4 + xattrLen name.length ≤ x → get8 F x = get8 buf x := by
  have hlen := le_xattrLen name.length
  generalize hB : patch (putLE 4 (putLE 4 (putLE 2 (patch (patch buf last 1
    fun _ => UInt8.ofNat name.length) (last + 1) 1 fun _ => index) (last + 2) vo) (last + 4) 0)
    (last + 8) len) (last + 16) name.length (fun i => name.getD i 0) = B
  have hframe : ∀ x, x < last ∨ last + xattrLen name.length ≤ x → get8 B x = get8 buf x := by
    intro x hx
    rw [← hB, get8_patch_of_disjoint (by omega), putLE, get8_patch_of_disjoint (by omega), putLE,
      get8_patch_of_disjoint (by omega), putLE, get8_patch_of_disjoint (by omega),
      get8_patch_of_disjoint (by omega), get8_patch_of_disjoint (by omega)]
  have hname : nameLen B last = (UInt8.ofNat name.length).toNat := by
    rw [nameLen, ← hB, get8_patch_of_disjoint (by omega), putLE, get8_patch_of_disjoint (by omega),
      putLE, get8_patch_of_disjoint (by omega), putLE, get8_patch_of_disjoint (by omega),
      get8_patch_of_disjoint (by omega), get8_patch_of_mem (by omega) (by omega) (by omega)]
  have hhere : nameIndex B last = index := by
    rw [nameIndex, ← hB, get8_patch_of_disjoint (by omega), putLE,
      get8_patch_of_disjoint (by omega), putLE, get8_patch_of_disjoint (by omega), putLE,
      get8_patch_of_disjoint (by omega), get8_patch_of_mem (by omega) (by omega) (by omega)]
  have hcut := toNat_ofNat_le name.length
  have hend : next B last ≤ last + xattrLen name.length := by
    rw [next, hname]
    unfold xattrLen
    omega
  have hbehind := le_next B last
  refine ⟨putLE 4 B (next B last) 0, ?_, ⟨next B last, ?_, hend⟩, ?_, ?_⟩
  · rw [newEntry, touch_bind hstart (by omega)]
    dsimp only
    rw [touch_bind (by omega) (by omega), hB, touch_bind (by omega) (by omega)]
  · have hsame : ∀ x < next B last, get8 (putLE 4 B (next B last) 0) x = get8 B x :=
      fun x hx => get8_patch_of_disjoint (by omega)
    have hchain : Entries buf q (ps ++ []) last := by rwa [List.append_nil]
    have hent : ¬ isLastEntry (putLE 4 B (next B last) 0) last := by
      have hindex' : nameIndex (putLE 4 B (next B last) 0) last = index :=
        (hsame _ (by omega)).trans hhere
      rw [isLastEntry_iff, hindex']
      rintro ⟨-, hzero, -⟩
      exact hindex (UInt8.toNat_inj.mp hzero)
    have hkept : nameLen (putLE 4 B (next B last) 0) last = nameLen B last :=
      congrArg UInt8.toNat (hsame last (by omega))
    have hnext : next (putLE 4 B (next B last) 0) last = next B last :=
      congrArg (fun l => last + xattrLen l) hkept
    have hmark : isLastEntry (putLE 4 B (next B last) 0) (next B last) := by
      rw [isLastEntry, getLE_putLE (by omega)]
      rfl
    refine hchain.withTail (fun x hx => ?_) (.cons hent ?_)
    · have hlt : x < last := hx
      rw [hsame x (by omega), hframe x (.inl hlt)]
    · change Entries (putLE 4 B (next B last) 0) (next (putLE 4 B (next B last) 0) last) [] _
      rw [hnext]
      exact .nil hmark
  · intro c hc
    refine h.otherAt hc fun x hx => ?_
    rw [putLE, get8_patch_of_disjoint (by omega), hframe x (.inl hx)]
  · intro x hx
    rw [putLE, get8_patch_of_disjoint (by omega), hframe x (by omega)]

end Ext4.Xattr
