import Mathlib.Data.List.Find
import OpenExt4.Xattr.Outcome

set_option autoImplicit false

/-! # Attribute areas that the check accepts

The operations on an accepted area: none of them leaves it or computes a size below zero, and none
changes another attribute, exactly if the value that goes away ends in the area, its padding
included, and shares no byte of its place with another value. -/

namespace Ext4.Xattr

open Bytes

variable {n : ℕ} {buf buf' F : Buf n} {a : Area} {p c last m vo vs : ℕ} {ps l₁ l₂ : List ℕ}

/-! ## Attributes -/

structure Attr where
  index : UInt8
  name : List UInt8
  value : List UInt8
  deriving DecidableEq

/-- The attribute of the entry at `p`. -/
def attrAt (a : Area) (buf : Buf n) (p : ℕ) : Attr where
  index := nameIndex buf p
  name := nameAt buf p
  value := (List.range (valueSize buf p)).map fun i => get8 buf (a.base + valueOffs buf p + i)

/-- The attributes of an area, in the order of their entries. -/
def attrs (a : Area) (buf : Buf n) : List Attr := (entries a buf).map (attrAt a buf)

/-- The attribute has this name. -/
def Attr.named (index : UInt8) (name : List UInt8) (t : Attr) : Bool :=
  decide (t.index = index ∧ t.name = name)

/-- The index of a namespace; those of the table of prefixes start at 1. -/
abbrev NameIndex := { index : UInt8 // index ≠ 0 }

/-- What is done with an area after its check. -/
inductive Op where
  | find (index : NameIndex) (name : List UInt8)
  | list
  | get (index : NameIndex) (name : List UInt8) (bufLen : ℕ)
  | set (index : NameIndex) (name value : List UInt8) (dryRun : Bool)
  | remove (index : NameIndex) (name : List UInt8)

/-- The operation, and the area after it. -/
def Op.run (a : Area) (buf : Buf n) : Op → Except Fault (Buf n)
  | .find index name => do
      let _ ← findEntry a buf index name
      .ok buf
  | .list => do
      let _ ← listFrom a buf n a.first
      .ok buf
  | .get index name bufLen => do
      match ← findEntry a buf index name with
      | none => .ok buf
      | some p =>
          let _ ← getValue a buf p bufLen
          .ok buf
  | .set index name value dryRun => do
      let here ← findEntry a buf index name
      let out ← setEntry a buf here index name (some value) dryRun
      .ok out.2
  | .remove index name => do
      let here ← findEntry a buf index name
      let out ← setEntry a buf here index name none false
      .ok out.2

/-- The other attributes are what they were. -/
def Op.KeepsOthers (a : Area) (buf F : Buf n) : Op → Prop
  | .find .. | .list | .get .. => F = buf
  | .set index name _ _ =>
      (attrs a F).eraseIdx ((attrs a buf).findIdx (Attr.named index name))
        = (attrs a buf).eraseIdx ((attrs a buf).findIdx (Attr.named index name))
  | .remove index name =>
      attrs a F = (attrs a buf).eraseIdx ((attrs a buf).findIdx (Attr.named index name))

/-- The operation stays in the area, computes no size below zero, and keeps the other attributes. -/
def Op.Safe (a : Area) (buf : Buf n) (op : Op) : Prop :=
  ∃ F, op.run a buf = .ok F ∧ op.KeepsOthers a buf F

/-- The entry of a name. -/
def entryOf (a : Area) (buf : Buf n) (index : UInt8) (name : List UInt8) : Option ℕ :=
  (entries a buf).find? fun p => isNamed buf index name p

/-- The place of the value at `p`, in words, ends in the area, and no other value has a byte of it
    or, from below, behind it. -/
def Apart (a : Area) (buf : Buf n) (p : ℕ) : Prop :=
  a.base + valueOffs buf p + xattrSize (valueSize buf p) ≤ n ∧
    ∀ c ∈ entries a buf, c ≠ p → valueSize buf c ≠ 0 →
      valueOffs buf c + valueSize buf c ≤ valueOffs buf p ∨
        valueOffs buf p + xattrSize (valueSize buf p) ≤ valueOffs buf c

/-- **When an operation is safe.** -/
def Op.Fine (a : Area) (buf : Buf n) : Op → Prop
  | .find .. | .list => True
  | .get index name bufLen => ∀ p ∈ entryOf a buf index name, min bufLen (valueSize buf p) ≠ 0 →
      a.base + valueOffs buf p + min bufLen (valueSize buf p) ≤ n
  | .set index name value dryRun => dryRun = true ∨
      ¬ fits a buf (entries a buf) (entriesEnd a buf) (entryOf a buf index name) name value ∨
      ∀ p ∈ entryOf a buf index name, Apart a buf p
  | .remove index name => ∀ p ∈ entryOf a buf index name, Apart a buf p

/-! ## Reading the attributes -/

theorem Entries.entries_eq (h : Entries buf a.first ps last) (hroom : last + 4 ≤ n) :
    entries a buf = ps := h.entriesFrom (h.length_lt hroom)

theorem Laid.entries_eq (h : Laid a buf ps last) : entries a buf = ps := h.chain.entries_eq h.room

theorem Laid.entriesEnd_eq (h : Laid a buf ps last) : entriesEnd a buf = last :=
  h.chain.endFrom (h.chain.length_lt h.room)

theorem Laid.attrs_eq (h : Laid a buf ps last) : attrs a buf = ps.map (attrAt a buf) := by
  rw [attrs, h.entries_eq]

theorem Laid.find (h : Laid a buf ps last) (index : UInt8) (name : List UInt8) :
    findEntry a buf index name = .ok (entryOf a buf index name) := by
  rw [entryOf, h.entries_eq]
  exact h.chain.findFrom h.start_le_first h.room (h.chain.length_lt h.room) index name

theorem isNamed_iff {index : UInt8} {name : List UInt8} :
    isNamed buf index name p ↔ (attrAt a buf p).named index name = true := by
  rw [Attr.named, decide_eq_true_iff]
  refine ⟨fun ⟨⟨_, hindex⟩, hname⟩ => ⟨hindex, hname⟩, fun ⟨hindex, hname⟩ => ⟨⟨?_, hindex⟩, hname⟩⟩
  have hlength : (nameAt buf p).length = nameLen buf p := by simp [nameAt]
  rw [← hlength]
  exact congrArg List.length hname

/-- The first entry of a name splits the others. -/
theorem Laid.entryOf_some {index : UInt8} {name : List UInt8} (h : Laid a buf ps last)
    (hfind : entryOf a buf index name = some p) :
    ∃ l₁ l₂, ps = l₁ ++ p :: l₂ ∧ isNamed buf index name p ∧
      ∀ c ∈ l₁, ¬ isNamed buf index name c := by
  rw [entryOf, h.entries_eq, List.find?_eq_some_iff_append] at hfind
  obtain ⟨hnamed, l₁, l₂, rfl, hbefore⟩ := hfind
  refine ⟨l₁, l₂, rfl, of_decide_eq_true hnamed, fun c hc hnamed => ?_⟩
  have hno := hbefore c hc
  rw [decide_eq_true hnamed] at hno
  exact Bool.false_ne_true hno

theorem Laid.findIdx_attrs {index : UInt8} {name : List UInt8}
    (h : Laid a buf (l₁ ++ p :: l₂) last) (hnamed : isNamed buf index name p)
    (hbefore : ∀ c ∈ l₁, ¬ isNamed buf index name c) :
    (attrs a buf).findIdx (Attr.named index name) = l₁.length := by
  have hhere : (Attr.named index name ∘ attrAt a buf) p = true := isNamed_iff.mp hnamed
  have hfirst : ∀ c ∈ l₁, (Attr.named index name ∘ attrAt a buf) c = false := fun c hc =>
    Bool.eq_false_iff.mpr (mt isNamed_iff.mpr (hbefore c hc))
  rw [h.attrs_eq, List.findIdx_map, List.findIdx_append, List.findIdx_eq_length.mpr hfirst,
    if_neg (lt_irrefl _), List.findIdx_cons, hhere, cond_true, Nat.zero_add]

theorem Laid.entryOf_none {index : UInt8} {name : List UInt8} (h : Laid a buf ps last)
    (hfind : entryOf a buf index name = none) :
    (attrs a buf).findIdx (Attr.named index name) = ps.length := by
  rw [entryOf, h.entries_eq, List.find?_eq_none] at hfind
  rw [h.attrs_eq, List.findIdx_map]
  refine List.findIdx_eq_length.mpr fun c hc => ?_
  have hno := hfind c hc
  rw [decide_eq_true_iff, isNamed_iff (a := a)] at hno
  exact Bool.eq_false_iff.mpr hno

theorem eraseIdx_middle {α : Type} (xs ys : List α) (y : α) :
    (xs ++ y :: ys).eraseIdx xs.length = xs ++ ys := by
  rw [List.eraseIdx_append_of_length_le le_rfl, Nat.sub_self, List.eraseIdx_cons_zero]

/-- Others are what they were if their values are. -/
theorem map_attrAt_eq_iff {l l' : List ℕ} (h : List.Forall₂ (OtherAt F buf vo vs) l' l) :
    l'.map (attrAt a F) = l.map (attrAt a buf) ↔
      ∀ c ∈ l, ∀ i < valueSize buf c, get8 F (a.base + adjusted vo vs (valueOffs buf c) + i)
        = get8 buf (a.base + valueOffs buf c + i) := by
  induction h with
  | nil => simp
  | @cons c' c l' l hother _ ih =>
      have hattr : attrAt a F c' = attrAt a buf c ↔ ∀ i < valueSize buf c,
          get8 F (a.base + adjusted vo vs (valueOffs buf c) + i)
            = get8 buf (a.base + valueOffs buf c + i) := by
        simp only [attrAt, hother.1.nameIndex, hother.1.nameAt, hother.1.valueSize, hother.2,
          Attr.mk.injEq, true_and, List.map_inj_left, List.mem_range]
      rw [List.map_cons, List.map_cons, List.cons.injEq, hattr, ih, List.forall_mem_cons]

/-! ## Outside of the area -/

theorem clearOld_outside (h : Laid a buf ps last) (hp : p ∈ ps)
    (hfit : n < a.base + valueOffs buf p + xattrSize (valueSize buf p)) :
    clearOld a buf (some p) (minOffs a buf ps) last = .error .outside := by
  have hbase := h.le_last
  have hroom := h.room
  have hoffs : valueOffs buf p ≠ 0 := by
    intro hzero
    rw [hzero, (h.offs_eq_zero hp).mp hzero] at hfit
    have hsize : xattrSize 0 = 0 := rfl
    omega
  have hsize : xattrSize (valueSize buf p) ≠ 0 :=
    mt xattrSize_eq_zero.mp (mt (h.offs_eq_zero hp).mpr hoffs)
  have hremove := @removeData_outside n buf a _ _ _ (h.minOffs_le_offs hp hoffs) hoffs hsize
    h.start_le hfit
  simp only [clearOld, hremove, bind, Except.bind]

theorem change_outside (h : Laid a buf ps last) (hp : p ∈ ps)
    (hfit : n < a.base + valueOffs buf p + xattrSize (valueSize buf p)) {index : UInt8}
    {name : List UInt8} {value : Option (List UInt8)} :
    change a buf ps last (some p) index name value = .error .outside := by
  simp only [change, clearOld_outside h hp hfit, bind, Except.bind]

/-! ## The other values -/

/-- The other values are what they were. -/
def KeepsValues (a : Area) (buf : Buf n) (m vo vs : ℕ) (v : List UInt8) (others : List ℕ) : Prop :=
  ∀ c ∈ others, ∀ i < valueSize buf c,
    settled a buf m vo vs v (a.base + adjusted vo vs (valueOffs buf c) + i)
      = get8 buf (a.base + valueOffs buf c + i)

variable {v : List UInt8}

/-- Values that are apart from the one that goes away are kept. -/
theorem keepsValues_of_apart (h : Laid a buf ps last) (hp : p ∈ ps) (hapart : Apart a buf p)
    {others : List ℕ} (hothers : ∀ c ∈ others, c ∈ ps ∧ c ≠ p) :
    KeepsValues a buf (minOffs a buf ps) (valueOffs buf p) (xattrSize (valueSize buf p)) v
      others := by
  intro c hc i hi
  obtain ⟨hcps, hne⟩ := hothers c hc
  have hmin := h.minOffs_le_offs hcps (mt (h.offs_eq_zero hcps).mp (Nat.ne_zero_of_lt hi))
  have hold : valueOffs buf p = 0 ∧ xattrSize (valueSize buf p) = 0 ∨
      minOffs a buf ps ≤ valueOffs buf p := by
    by_cases hzero : valueOffs buf p = 0
    · exact .inl ⟨hzero, xattrSize_eq_zero.mpr ((h.offs_eq_zero hp).mp hzero)⟩
    · exact .inr (h.minOffs_le_offs hp hzero)
  have hclear := hapart.2 c (h.entries_eq ▸ hcps) hne (Nat.ne_zero_of_lt hi)
  generalize minOffs a buf ps = m at *
  generalize valueOffs buf p = vo at *
  generalize xattrSize (valueSize buf p) = vs at *
  unfold settled adjusted
  by_cases hbelow : valueOffs buf c < vo
  · rw [if_pos hbelow, if_neg (by omega), if_pos (by omega)]
    congr 1
    omega
  · rw [if_neg hbelow, if_neg (by omega), if_neg (by omega)]

/-- A byte that two values share: what it is afterwards does not depend on what it was. -/
theorem shared_byte (h : Laid a buf ps last) (hp : p ∈ ps) (hc : c ∈ ps)
    (hsize : valueSize buf c ≠ 0)
    (hover : valueOffs buf p < valueOffs buf c + valueSize buf c)
    (hunder : valueOffs buf c < valueOffs buf p + xattrSize (valueSize buf p)) :
    ∃ i < valueSize buf c,
      last + 4 ≤ a.base + valueOffs buf c + i ∧
      a.base + valueOffs buf c + i
        < a.base + valueOffs buf p + xattrSize (valueSize buf p) ∧
      ∀ b b' : Buf n, (∀ x ≠ a.base + valueOffs buf c + i, get8 b x = get8 b' x) →
        ∀ x, x = a.base + adjusted (valueOffs buf p) (xattrSize (valueSize buf p))
          (valueOffs buf c) + i →
        settled a b (minOffs a buf ps) (valueOffs buf p) (xattrSize (valueSize buf p)) v x
          = settled a b' (minOffs a buf ps) (valueOffs buf p) (xattrSize (valueSize buf p)) v
            x := by
  have hbelow := h.below c hc hsize
  have hpoffs : valueOffs buf p ≠ 0 := by
    intro hzero
    rw [hzero, (h.offs_eq_zero hp).mp hzero] at hunder
    have hnone : xattrSize 0 = 0 := rfl
    omega
  have hmin := h.minOffs_le_offs hp hpoffs
  have hpbelow := h.below p hp (mt (h.offs_eq_zero hp).mpr hpoffs)
  have hvs : xattrSize (valueSize buf p) ≠ 0 :=
    mt xattrSize_eq_zero.mp (mt (h.offs_eq_zero hp).mpr hpoffs)
  generalize minOffs a buf ps = m at *
  generalize valueOffs buf p = vo at *
  generalize xattrSize (valueSize buf p) = vs at *
  refine ⟨vo - valueOffs buf c, by omega, by omega, by omega, fun b b' hsame x hx => ?_⟩
  unfold adjusted at hx
  unfold settled
  by_cases hfirst : valueOffs buf c < vo
  · rw [if_pos hfirst] at hx
    have hout : ¬ x < a.base + m + vs := by omega
    have hout' : ¬ x < a.base + vo + vs := by omega
    rw [if_neg hout, if_neg hout', if_neg hout, if_neg hout', hsame x (by omega)]
  · rw [if_neg hfirst] at hx
    by_cases hgap : x < a.base + m + vs
    · rw [if_pos hgap, if_pos hgap]
    · have hin : x < a.base + vo + vs := by omega
      rw [if_neg hgap, if_pos hin, if_neg hgap, if_pos hin, hsame (x - vs) (by omega)]

/-! ## Areas with the same entries -/

/-- The area has the same entries, with other values. -/
def SameEntries (a : Area) (buf buf' : Buf n) : Prop :=
  ∀ x < entriesEnd a buf + 4, get8 buf' x = get8 buf x

/-- The check reads no value. -/
theorem walkValid_same {base fuel m' : ℕ} (h : walkValid buf base fuel p m = some (last, m'))
    (hsame : ∀ x < last + 4, get8 buf' x = get8 buf x) :
    walkValid buf' base fuel p m = some (last, m') := by
  induction fuel generalizing p m with
  | zero => simp [walkValid] at h
  | succ fuel ih =>
      obtain ⟨ps, hchain, -⟩ := walkValid_entries h
      have hle := hchain.le
      have hword {q w : ℕ} (hq : q + w ≤ last + 4) : getLE w buf' q = getLE w buf q :=
        getLE_congr fun x _ hx => hsame x (by omega)
      have hmark : isLastEntry buf' p ↔ isLastEntry buf p := by
        rw [isLastEntry, isLastEntry, hword (by omega)]
      have hlen : nameLen buf' p = nameLen buf p := congrArg UInt8.toNat (hsame p (by omega))
      have hnext : next buf' p = next buf p := by rw [next, next, hlen]
      rw [walkValid] at h ⊢
      by_cases hlast : isLastEntry buf p
      · rw [if_pos hlast] at h
        rw [if_pos (hmark.mpr hlast)]
        exact h
      · have hnot := mt hmark.mp hlast
        rw [if_neg hlast] at h
        rw [if_neg hnot, hnext]
        have hlonger : next buf p ≤ last := by
          cases hchain with
          | nil hend => exact absurd hend hlast
          | cons _ hrest => exact hrest.le
        have hbehind := le_next buf p
        have hoffs : valueOffs buf' p = valueOffs buf p := hword (by omega)
        have hsize : valueSize buf' p = valueSize buf p := hword (by omega)
        have hless : lessOffs buf' p m = lessOffs buf p m := by
          rw [lessOffs, lessOffs, hoffs, hsize]
        rw [hoffs, hsize, hless]
        split_ifs at h ⊢
        exact ih h

theorem fieldsApart_same {base fuel : ℕ}
    (h : fieldsApart base (walkValid buf base fuel p m) = true)
    (hsame : ∀ ps last, Entries buf p ps last → ∀ x < last + 4, get8 buf' x = get8 buf x) :
    fieldsApart base (walkValid buf' base fuel p m) = true := by
  rcases hwalk : walkValid buf base fuel p m with _ | ⟨last, m'⟩
  · rw [hwalk] at h
    exact absurd h Bool.false_ne_true
  · obtain ⟨ps, hchain, -⟩ := walkValid_entries hwalk
    rw [walkValid_same hwalk (hsame ps last hchain)]
    rwa [hwalk] at h

/-- An area is accepted for its entries, whatever its values. -/
theorem Accepted.same (h : Accepted a buf) (hsame : SameEntries a buf buf') :
    Accepted a buf' := by
  obtain ⟨ps, last, hlaid⟩ := h.laid
  rw [SameEntries, hlaid.entriesEnd_eq] at hsame
  have hfirst := hlaid.chain.le
  have hchains : ∀ ps' last', Entries buf a.first ps' last' →
      ∀ x < last' + 4, get8 buf' x = get8 buf x := by
    intro ps' last' hchain x hx
    have hend : last' = last := by
      rw [← hchain.endFrom (Nat.lt_succ_of_le (Nat.le_max_left ps'.length ps.length)),
        ← hlaid.chain.endFrom (Nat.lt_succ_of_le (Nat.le_max_right ps'.length ps.length))]
    exact hsame x (hend ▸ hx)
  have hword {q w : ℕ} (hq : q + w ≤ last + 4) : getLE w buf' q = getLE w buf q :=
    getLE_congr fun x _ hx => hsame x (by omega)
  rcases h with ⟨rfl, h⟩ | ⟨rfl, h⟩
  · have hstart : 32 ≤ last := hfirst
    refine .inl ⟨rfl, ?_⟩
    simp only [isBlockValid, Bool.and_eq_true] at h ⊢
    rw [hword (by omega), hword (by omega)]
    exact ⟨h.1, fieldsApart_same h.2 hchains⟩
  · have hstart : ihdr buf + 4 ≤ last := hfirst
    have hroom := hlaid.room
    have hsize : extraIsize buf' = extraIsize buf := by
      unfold extraIsize
      unfold ihdr EXT4_GOOD_OLD_INODE_SIZE at hstart
      rw [hword (by omega)]
    have hhdr : ihdr buf' = ihdr buf := by rw [ihdr, ihdr, hsize]
    refine .inr ⟨by rw [ibodyArea, ibodyArea, hhdr], ?_⟩
    simp only [isIbodyValid, Bool.and_eq_true] at h ⊢
    rw [hhdr, hsize, hword (by omega)]
    exact ⟨h.1, fieldsApart_same h.2 hchains⟩

theorem Laid.otherAt (h : Laid a buf ps last) (hsame : ∀ x < last + 4, get8 buf' x = get8 buf x)
    (hc : c ∈ ps) : OtherAt buf' buf 0 0 c c :=
  h.chain.otherAt hc fun x hx => hsame x (by omega)

theorem Laid.valueOffs_same (h : Laid a buf ps last)
    (hsame : ∀ x < last + 4, get8 buf' x = get8 buf x) (hc : c ∈ ps) :
    valueOffs buf' c = valueOffs buf c := by
  rw [(h.otherAt hsame hc).2, adjusted_zero]

theorem Laid.same (h : Laid a buf ps last) (hsame : ∀ x < last + 4, get8 buf' x = get8 buf x) :
    Laid a buf' ps last where
  chain := h.chain.of_agree fun x _ hx => hsame x hx
  start_le := h.start_le
  base_le := h.base_le
  room := h.room
  empty c hc hsize := by
    rw [(h.otherAt hsame hc).1.valueSize] at hsize
    rw [h.valueOffs_same hsame hc]
    exact h.empty c hc hsize
  below c hc hsize := by
    rw [(h.otherAt hsame hc).1.valueSize] at hsize
    rw [h.valueOffs_same hsame hc]
    exact h.below c hc hsize

theorem Laid.minOffs_same (h : Laid a buf ps last)
    (hsame : ∀ x < last + 4, get8 buf' x = get8 buf x) :
    minOffs a buf' ps = minOffs a buf ps := by
  refine List.foldl_ext _ _ _ fun m c hc => ?_
  rw [lessOffs, lessOffs, (h.otherAt hsame hc).1.valueSize, h.valueOffs_same hsame hc]

theorem Laid.isNamed_same (h : Laid a buf ps last)
    (hsame : ∀ x < last + 4, get8 buf' x = get8 buf x) {index : UInt8} {name : List UInt8}
    (hc : c ∈ ps) : isNamed buf' index name c ↔ isNamed buf index name c := by
  have hother := (h.otherAt hsame hc).1
  unfold isNamed
  rw [hother.nameLen, hother.nameIndex, hother.nameAt]

theorem Laid.entryOf_same (h : Laid a buf ps last)
    (hsame : ∀ x < last + 4, get8 buf' x = get8 buf x) (index : UInt8) (name : List UInt8) :
    entryOf a buf' index name = entryOf a buf index name := by
  rw [entryOf, entryOf, h.entries_eq, (h.same hsame).entries_eq]
  exact List.find?_congr fun c hc => decide_eq_decide.mpr (h.isNamed_same hsame hc)

theorem Laid.fits_same (h : Laid a buf ps last)
    (hsame : ∀ x < last + 4, get8 buf' x = get8 buf x) {index : UInt8} {name : List UInt8} :
    fits a buf' ps last (entryOf a buf' index name) name v ↔
      fits a buf ps last (entryOf a buf index name) name v := by
  have hfree : freeSpace a buf' ps last = freeSpace a buf ps last := by
    rw [freeSpace, freeSpace, h.minOffs_same hsame]
  have hreuse : reusable buf' (entryOf a buf index name)
      = reusable buf (entryOf a buf index name) := by
    cases hfind : entryOf a buf index name with
    | none => rfl
    | some p =>
        have hp : p ∈ ps := by
          obtain ⟨l₁, l₂, rfl, -⟩ := h.entryOf_some hfind
          exact List.mem_append_right _ List.mem_cons_self
        have hother := (h.otherAt hsame hp).1
        rw [reusable, reusable, hother.valueSize, hother.nameLen]
  rw [fits, fits, h.entryOf_same hsame, hfree, hreuse]

/-! ## Each operation -/

section ops

variable {index : NameIndex} {name : List UInt8} {bufLen : ℕ}

theorem find_safe (h : Laid a buf ps last) : (Op.find index name).Safe a buf :=
  ⟨buf, by rw [Op.run, h.find]; rfl, rfl⟩

theorem list_safe (h : Laid a buf ps last) : Op.list.Safe a buf := by
  refine ⟨buf, ?_, rfl⟩
  rw [Op.run, h.chain.listFrom h.start_le_first h.room (h.chain.length_lt h.room)]
  rfl

theorem get_safe_iff (h : Laid a buf ps last) :
    (Op.get index name bufLen).Safe a buf ↔ (Op.get index name bufLen).Fine a buf := by
  have hrun : (Op.get index name bufLen).run a buf = (match entryOf a buf index name with
      | none => Except.ok buf
      | some p => getValue a buf p bufLen >>= fun _ => Except.ok buf) := by
    rw [Op.run, h.find]
    rfl
  rw [Op.Safe, Op.Fine, hrun]
  cases hfind : entryOf a buf index name with
  | none =>
      constructor
      · intro _ p hp
        cases hp
      · intro _
        exact ⟨buf, rfl, rfl⟩
  | some p =>
      have hstart := h.start_le
      dsimp only
      constructor
      · rintro ⟨F, hrun, -⟩ q hq hlen
        obtain rfl := Option.some.inj hq
        by_contra hout
        have hfault : getValue a buf p bufLen = .error .outside := by
          rw [getValue, touch_bind_error (by omega) hlen]
        rw [hfault] at hrun
        cases hrun
      · intro hin
        refine ⟨buf, ?_, rfl⟩
        have hgo : ∃ out, getValue a buf p bufLen = .ok out := by
          by_cases hlen : min bufLen (valueSize buf p) = 0
          · rw [getValue, hlen]
            exact ⟨_, rfl⟩
          · rw [getValue, touch_bind (by omega) (hin p rfl hlen)]
            exact ⟨_, rfl⟩
        obtain ⟨out, hout⟩ := hgo
        rw [hout]
        rfl

/-- What is kept of the others, from the bytes that a change settles. -/
theorem map_attrAt_eq_iff_keeps {l l' : List ℕ} (h : Laid a buf ps last) (hl : ∀ c ∈ l, c ∈ ps)
    (hothers : List.Forall₂ (OtherAt F buf vo vs) l' l)
    (hvalues : ∀ x, a.base + minOffs a buf ps ≤ x →
      get8 F x = settled a buf (minOffs a buf ps) vo vs v x) :
    l'.map (attrAt a F) = l.map (attrAt a buf) ↔
      KeepsValues a buf (minOffs a buf ps) vo vs v l := by
  rw [map_attrAt_eq_iff hothers]
  refine forall₂_congr fun c hc => forall₂_congr fun i hi => ?_
  have hmin := h.minOffs_le_offs (hl c hc)
    (mt (h.offs_eq_zero (hl c hc)).mp (Nat.ne_zero_of_lt hi))
  have hle : valueOffs buf c ≤ adjusted vo vs (valueOffs buf c) := by
    unfold adjusted
    split <;> omega
  rw [hvalues _ (by omega)]

theorem mem_of_mem_others (hc : c ∈ l₁ ++ l₂) : c ∈ l₁ ++ p :: l₂ := by
  rcases List.mem_append.mp hc with hc | hc
  · exact List.mem_append_left _ hc
  · exact List.mem_append_right _ (List.mem_cons_of_mem _ hc)

/-- The attributes but the one at the entry that splits them. -/
theorem Laid.eraseIdx_attrs (h : Laid a buf (l₁ ++ p :: l₂) last) :
    (attrs a buf).eraseIdx l₁.length = (l₁ ++ l₂).map (attrAt a buf) := by
  rw [h.attrs_eq, List.eraseIdx_map, eraseIdx_middle]

theorem remove_safe_iff (h : Laid a buf (l₁ ++ p :: l₂) last) (hn : n ≤ 65536)
    (hfind : entryOf a buf index name = some p) (hnamed : isNamed buf index name p)
    (hbefore : ∀ c ∈ l₁, ¬ isNamed buf index name c) :
    (Op.remove index name).Safe a buf ↔
      a.base + valueOffs buf p + xattrSize (valueSize buf p) ≤ n ∧
        KeepsValues a buf (minOffs a buf (l₁ ++ p :: l₂)) (valueOffs buf p)
          (xattrSize (valueSize buf p)) [] (l₁ ++ l₂) := by
  rw [Op.Safe, Op.run, h.find, hfind]
  change (∃ F, (setEntry a buf (some p) index name none false >>= fun out => Except.ok out.2)
    = Except.ok F ∧ _) ↔ _
  rw [setEntry_remove_eq h]
  by_cases hfit : a.base + valueOffs buf p + xattrSize (valueSize buf p) ≤ n
  · obtain ⟨F, d, last', hchange, hchain, hroom, hothers, hvalues⟩ :=
      change_remove index name h hn rfl rfl hfit
    rw [hchange, and_iff_right hfit,
      ← map_attrAt_eq_iff_keeps h (fun c => mem_of_mem_others) hothers hvalues]
    simp only [Op.KeepsOthers, h.findIdx_attrs hnamed hbefore, h.eraseIdx_attrs]
    constructor
    · rintro ⟨G, hG, hkept⟩
      obtain rfl : F = G := Except.ok.inj hG
      rwa [attrs, hchain.entries_eq hroom] at hkept
    · intro hkept
      exact ⟨F, rfl, by rwa [attrs, hchain.entries_eq hroom]⟩
  · rw [change_outside h (List.mem_append_right _ List.mem_cons_self) (by omega)]
    constructor
    · rintro ⟨G, hG, -⟩
      cases hG
    · intro hboth
      exact absurd hboth.1 hfit

theorem remove_absent (h : Laid a buf ps last) (hfind : entryOf a buf index name = none) :
    (Op.remove index name).Safe a buf := by
  refine ⟨buf, ?_, ?_⟩
  · rw [Op.run, h.find, hfind]
    rfl
  · rw [Op.KeepsOthers, h.entryOf_none hfind, List.eraseIdx_of_length_le]
    rw [h.attrs_eq, List.length_map]

theorem set_unchanged (h : Laid a buf ps last) {dryRun : Bool}
    (hno : ¬ fits a buf ps last (entryOf a buf index name) name v ∨ dryRun = true) :
    (Op.set index name v dryRun).Safe a buf := by
  refine ⟨buf, ?_, rfl⟩
  rw [Op.run, h.find]
  change (setEntry a buf (entryOf a buf index name) index name (some v) dryRun >>= _) = _
  rw [setEntry_set_eq h]
  by_cases hfits : fits a buf ps last (entryOf a buf index name) name v
  · rw [if_neg (not_not.mpr hfits), if_pos (hno.resolve_left (not_not.mpr hfits))]
    rfl
  · rw [if_pos hfits]
    rfl

theorem set_new (h : Laid a buf ps last) (hfind : entryOf a buf index name = none)
    (hfits : fits a buf ps last none name v) : (Op.set index name v false).Safe a buf := by
  obtain ⟨F, last', hchange, hchain, hroom, hothers, hvalues⟩ :=
    change_insert h index.2 hfits
  refine ⟨F, ?_, ?_⟩
  · rw [Op.run, h.find, hfind]
    change (setEntry a buf none index name (some v) false >>= _) = _
    rw [setEntry_set_eq h, if_neg (not_not.mpr hfits), if_neg Bool.false_ne_true, hchange]
    rfl
  · rw [Op.KeepsOthers, h.entryOf_none hfind, attrs, hchain.entries_eq hroom, List.eraseIdx_map,
      eraseIdx_middle, List.append_nil,
      List.eraseIdx_of_length_le (by rw [h.attrs_eq, List.length_map]), h.attrs_eq, map_attrAt_eq_iff hothers]
    intro c hc i hi
    have hmin := h.minOffs_le_offs hc (mt (h.offs_eq_zero hc).mp (Nat.ne_zero_of_lt hi))
    rw [adjusted_zero, hvalues _ (by omega)]

theorem set_safe_iff (h : Laid a buf (l₁ ++ p :: l₂) last) (hn : n ≤ 65536)
    (hfind : entryOf a buf index name = some p) (hnamed : isNamed buf index name p)
    (hbefore : ∀ c ∈ l₁, ¬ isNamed buf index name c)
    (hfits : fits a buf (l₁ ++ p :: l₂) last (some p) name v) :
    (Op.set index name v false).Safe a buf ↔
      a.base + valueOffs buf p + xattrSize (valueSize buf p) ≤ n ∧
        KeepsValues a buf (minOffs a buf (l₁ ++ p :: l₂)) (valueOffs buf p)
          (xattrSize (valueSize buf p)) v (l₁ ++ l₂) := by
  rw [Op.Safe, Op.run, h.find, hfind]
  change (∃ F, (setEntry a buf (some p) index name (some v) false >>= fun out => Except.ok out.2)
    = Except.ok F ∧ _) ↔ _
  rw [setEntry_set_eq h, if_neg (not_not.mpr hfits), if_neg Bool.false_ne_true]
  by_cases hfit : a.base + valueOffs buf p + xattrSize (valueSize buf p) ≤ n
  · obtain ⟨F, hchange, hchain, hothers, hvalues⟩ := change_replace index h hn rfl rfl
      hfit (hnamed.1.2 ▸ index.2) hnamed.1.1 hfits
    rw [hchange, and_iff_right hfit,
      ← map_attrAt_eq_iff_keeps h (fun c => mem_of_mem_others) hothers hvalues]
    have hafter : (attrs a F).eraseIdx l₁.length = (l₁ ++ l₂).map (attrAt a F) := by
      rw [attrs, hchain.entries_eq h.room, List.eraseIdx_map, eraseIdx_middle]
    simp only [Op.KeepsOthers, h.findIdx_attrs hnamed hbefore, h.eraseIdx_attrs]
    constructor
    · rintro ⟨G, hG, hkept⟩
      obtain rfl : F = G := Except.ok.inj hG
      rwa [hafter] at hkept
    · intro hkept
      exact ⟨F, rfl, by rwa [hafter]⟩
  · rw [change_outside h (List.mem_append_right _ List.mem_cons_self) (by omega)]
    constructor
    · rintro ⟨G, hG, -⟩
      cases hG
    · intro hboth
      exact absurd hboth.1 hfit

end ops

/-! ## All operations -/

theorem Apart.same (h : Laid a buf ps last) (hsame : ∀ x < last + 4, get8 buf' x = get8 buf x)
    (hp : p ∈ ps) (hapart : Apart a buf p) : Apart a buf' p := by
  unfold Apart at *
  rw [h.entries_eq] at hapart
  rw [(h.same hsame).entries_eq, h.valueOffs_same hsame hp, (h.otherAt hsame hp).1.valueSize]
  refine ⟨hapart.1, fun c hc hne hsize => ?_⟩
  rw [(h.otherAt hsame hc).1.valueSize] at hsize ⊢
  rw [h.valueOffs_same hsame hc]
  exact hapart.2 c hc hne hsize

theorem Laid.mem_of_entryOf {index : UInt8} {name : List UInt8} (h : Laid a buf ps last)
    (hfind : p ∈ entryOf a buf index name) : p ∈ ps := by
  obtain ⟨l₁, l₂, rfl, -⟩ := h.entryOf_some hfind
  exact List.mem_append_right _ List.mem_cons_self

theorem Op.Fine.same (h : Laid a buf ps last) (hsame : ∀ x < last + 4, get8 buf' x = get8 buf x)
    {op : Op} (hfine : op.Fine a buf) : op.Fine a buf' := by
  cases op with
  | find index name => trivial
  | list => trivial
  | get index name bufLen =>
      intro p hp
      rw [h.entryOf_same hsame] at hp
      have hmem := h.mem_of_entryOf hp
      rw [h.valueOffs_same hsame hmem, (h.otherAt hsame hmem).1.valueSize]
      exact hfine p hp
  | set index name value dryRun =>
      rw [Op.Fine, (h.same hsame).entries_eq, (h.same hsame).entriesEnd_eq, h.fits_same hsame]
      rw [Op.Fine, h.entries_eq, h.entriesEnd_eq] at hfine
      refine hfine.imp id (Or.imp id fun hapart p hp => ?_)
      rw [h.entryOf_same hsame] at hp
      exact (hapart p hp).same h hsame (h.mem_of_entryOf hp)
  | remove index name =>
      intro p hp
      rw [h.entryOf_same hsame] at hp
      exact (hfine p hp).same h hsame (h.mem_of_entryOf hp)

theorem others_ne (h : Laid a buf (l₁ ++ p :: l₂) last) (hc : c ∈ l₁ ++ l₂) :
    c ∈ l₁ ++ p :: l₂ ∧ c ≠ p := by
  refine ⟨mem_of_mem_others hc, ?_⟩
  rintro rfl
  exact (List.nodup_cons.mp (List.nodup_middle.mp h.chain.nodup)).1 hc

/-- The condition is enough. -/
theorem safe_of_fine (h : Laid a buf ps last) (hn : n ≤ 65536) {op : Op} (hfine : op.Fine a buf) :
    op.Safe a buf := by
  cases op with
  | find index name => exact find_safe h
  | list => exact list_safe h
  | get index name bufLen => exact (get_safe_iff h).mpr hfine
  | set index name value dryRun =>
      rw [Op.Fine, h.entries_eq, h.entriesEnd_eq] at hfine
      by_cases hfits : fits a buf ps last (entryOf a buf index name) name value
      · cases dryRun with
        | true => exact set_unchanged h (.inr rfl)
        | false =>
            have hapart := (hfine.resolve_left Bool.false_ne_true).resolve_left
              (not_not.mpr hfits)
            cases hfind : entryOf a buf index name with
            | none => exact set_new h hfind (hfind ▸ hfits)
            | some p =>
                have hp := hapart p hfind
                rw [hfind] at hfits
                obtain ⟨l₁, l₂, rfl, hnamed, hbefore⟩ := h.entryOf_some hfind
                refine (set_safe_iff h hn hfind hnamed hbefore hfits).mpr ⟨hp.1, ?_⟩
                exact keepsValues_of_apart h (List.mem_append_right _ List.mem_cons_self) hp
                  fun c hc => others_ne h hc
      · exact set_unchanged h (.inl hfits)
  | remove index name =>
      cases hfind : entryOf a buf index name with
      | none => exact remove_absent h hfind
      | some p =>
          have hp := hfine p hfind
          obtain ⟨l₁, l₂, rfl, hnamed, hbefore⟩ := h.entryOf_some hfind
          refine (remove_safe_iff h hn hfind hnamed hbefore).mpr ⟨hp.1, ?_⟩
          exact keepsValues_of_apart h (List.mem_append_right _ List.mem_cons_self) hp
            fun c hc => others_ne h hc

/-- Whatever the values, the others are kept: then none of them is where the old one was. -/
theorem apart_of_keeps (h : Laid a buf (l₁ ++ p :: l₂) last)
    (hfit : a.base + valueOffs buf p + xattrSize (valueSize buf p) ≤ n) {v : List UInt8}
    (hkeeps : ∀ buf' : Buf n, (∀ x < last + 4, get8 buf' x = get8 buf x) →
      KeepsValues a buf' (minOffs a buf (l₁ ++ p :: l₂)) (valueOffs buf p)
        (xattrSize (valueSize buf p)) v (l₁ ++ l₂)) : Apart a buf p := by
  have hp : p ∈ l₁ ++ p :: l₂ := List.mem_append_right _ List.mem_cons_self
  refine ⟨hfit, fun c hc hne hsize => ?_⟩
  rw [h.entries_eq] at hc
  by_contra hover
  push Not at hover
  obtain ⟨i, hi, hbehind, hin, hconst⟩ := shared_byte (v := v) h hp hc hsize hover.1 hover.2
  have hother : c ∈ l₁ ++ l₂ := by
    rcases List.mem_append.mp hc with hc | hc
    · exact List.mem_append_left _ hc
    · exact List.mem_append_right _ ((List.mem_cons.mp hc).resolve_left hne)
  -- the area with a given byte at the shared place
  have hbyte (b : UInt8) : settled a (patch buf (a.base + valueOffs buf c + i) 1 fun _ => b)
      (minOffs a buf (l₁ ++ p :: l₂)) (valueOffs buf p) (xattrSize (valueSize buf p)) v
      (a.base + adjusted (valueOffs buf p) (xattrSize (valueSize buf p)) (valueOffs buf c) + i)
        = b := by
    have hsame : ∀ x < last + 4,
        get8 (patch buf (a.base + valueOffs buf c + i) 1 fun _ => b) x = get8 buf x :=
      fun x hx => get8_patch_of_disjoint (by omega)
    have hkept := hkeeps _ hsame c hother i (by rwa [(h.otherAt hsame hc).1.valueSize])
    rw [h.valueOffs_same hsame hc, get8_patch_of_mem (by omega) le_rfl (by omega)] at hkept
    exact hkept
  have heq := hconst (patch buf (a.base + valueOffs buf c + i) 1 fun _ => 0)
    (patch buf (a.base + valueOffs buf c + i) 1 fun _ => 1)
    (fun x hx => by rw [get8_patch_of_disjoint (by omega), get8_patch_of_disjoint (by omega)])
    _ rfl
  rw [hbyte 0, hbyte 1] at heq
  exact absurd heq (by decide)

/-- A block of 1 KiB with one attribute, `user.a`, whose value is one byte at the offset given. -/
def oneAttr (offs : ℕ) : Buf 1024 := fun i =>
  match i.val with
  | 2 => 0x02
  | 3 => 0xEA
  | 4 | 8 | 32 | 33 | 40 => 1
  | 34 => UInt8.ofNat offs
  | 35 => UInt8.ofNat (offs / 256)
  | 48 => 0x61
  | _ => 0

end Ext4.Xattr
