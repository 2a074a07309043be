import OpenExt4.Extents.Formed
import OpenExt4.Extents.Remove
import Mathlib.Data.List.Basic

set_option autoImplicit false

/-! # Cutting a list of extents

What a removal of all blocks from one on leaves of a list of extents, and which physical blocks it
sets free. -/

namespace Extents

/-! ## Shorter extents -/

/-- The limit on the length of an extent in this state. -/
def Extent.limit (e : Extent) : ℕ := if e.isUnwritten then extUnwrittenMaxLen else extInitMaxLen

theorem Extent.len_le_limit (e : Extent) : e.len ≤ e.limit := by
  have hcount := e.blockCount_lt
  unfold Extent.len Extent.limit Extent.isUnwritten extUnwrittenMaxLen extInitMaxLen
  by_cases hwritten : e.blockCount ≤ 2 ^ 15
  · rw [if_pos hwritten, if_neg (by simpa using hwritten)]
    exact hwritten
  · rw [if_neg hwritten, if_pos (by simpa using hwritten)]
    omega

/-- A length up to the limit leaves the extent in its state. -/
theorem Extent.reduced_fields {e : Extent} {first len start : ℕ} (hfirst : first < 2 ^ 32)
    (hstart : start < 2 ^ 48) (hpos : 0 < len) (hlen : len ≤ e.limit) :
    (e.reduced first len start).firstBlock = first ∧ (e.reduced first len start).start = start ∧
      (e.reduced first len start).len = len ∧
        (e.reduced first len start).isUnwritten = e.isUnwritten := by
  unfold Extent.limit extUnwrittenMaxLen extInitMaxLen at hlen
  unfold Extent.reduced
  cases hstate : e.isUnwritten with
  | true =>
      rw [hstate, if_pos rfl] at hlen
      -- the top bit is not in the length
      have hor : len ||| 2 ^ 15 = 2 ^ 15 + len := by
        have := Nat.two_pow_add_eq_or_of_lt (i := 15) (b := len) (by omega) 1
        rw [Nat.or_comm, ← Nat.mul_one (2 ^ 15), ← this]
      have hmod : len % 2 ^ 16 = len := by omega
      simp only [if_true, Extent.markUnwritten, Extent.of, Extent.len, Extent.isUnwritten,
        extInitMaxLen, hmod, hor, decide_eq_true_eq]
      refine ⟨by omega, by omega, ?_, by omega⟩
      split_ifs <;> omega
  | false =>
      rw [hstate, if_neg (by decide)] at hlen
      simp only [Bool.false_eq_true, if_false, Extent.of, Extent.len, Extent.isUnwritten,
        extInitMaxLen, decide_eq_false_iff_not]
      refine ⟨by omega, by omega, ?_, by omega⟩
      split_ifs <;> omega

/-! ## One extent -/

/-- What lies before a block. -/
def Extent.cut (frm : ℕ) (e : Extent) : Option Extent :=
  if frm ≤ e.firstBlock then none
  else if e.firstBlock + e.len ≤ frm then some e
  else some (e.reduced e.firstBlock (frm - e.firstBlock) e.start)

/-- The physical blocks of what lies at the block or behind it. -/
def Extent.gone (frm : ℕ) (e : Extent) : List ℕ :=
  List.range' (e.start + (frm - e.firstBlock)) (e.len - (frm - e.firstBlock))

theorem Extent.cut_fields {frm : ℕ} {e e' : Extent} (h : e.cut frm = some e') :
    e'.firstBlock = e.firstBlock ∧ e'.start = e.start ∧
      e'.len = min e.len (frm - e.firstBlock) ∧ e'.isUnwritten = e.isUnwritten := by
  unfold Extent.cut at h
  split_ifs at h with habove hbelow
  · obtain rfl := Option.some.inj h
    refine ⟨rfl, rfl, ?_, rfl⟩
    omega
  · obtain rfl := Option.some.inj h
    have hlimit := e.len_le_limit
    obtain ⟨hfirst, hstart, hlen, hstate⟩ := Extent.reduced_fields (e := e) e.firstBlock_lt e.start_lt
      (by omega : 0 < frm - e.firstBlock) (by omega)
    refine ⟨hfirst, hstart, ?_, hstate⟩
    rw [hlen]
    omega

theorem Extent.cut_eq_none {frm : ℕ} {e : Extent} : e.cut frm = none ↔ frm ≤ e.firstBlock := by
  unfold Extent.cut
  split_ifs <;> simp_all

/-- The blocks of an extent are those kept and those set free. -/
theorem Extent.blocks_cut (frm : ℕ) (e : Extent) :
    (e.cut frm).toList.flatMap Extent.blocks ++ e.gone frm = e.blocks := by
  unfold Extent.gone
  cases hcut : e.cut frm with
  | none =>
      have := Extent.cut_eq_none.mp hcut
      rw [Nat.sub_eq_zero_of_le this]
      rfl
  | some e' =>
      obtain ⟨-, hstart, hlen, -⟩ := Extent.cut_fields hcut
      simp only [Option.toList_some, List.flatMap_cons, List.flatMap_nil, List.append_nil,
        Extent.blocks, hstart, hlen]
      by_cases hall : e.len ≤ frm - e.firstBlock
      · rw [Nat.min_eq_left hall, Nat.sub_eq_zero_of_le hall, List.range'_zero, List.append_nil]
      · rw [Nat.min_eq_right (by omega), List.range'_append_1]
        congr 1
        omega

/-! ## Lists of extents -/

/-- What of the extents lies before a block. -/
def cutAt (frm : ℕ) (es : List Extent) : List Extent := es.filterMap (Extent.cut frm)

/-- The physical blocks of the rest. -/
def goneFrom (frm : ℕ) (es : List Extent) : List ℕ := es.flatMap (Extent.gone frm)

variable {frm b : ℕ} {es as bs : List Extent}

@[simp] theorem cutAt_append : cutAt frm (as ++ bs) = cutAt frm as ++ cutAt frm bs :=
  List.filterMap_append

@[simp] theorem goneFrom_append : goneFrom frm (as ++ bs) = goneFrom frm as ++ goneFrom frm bs :=
  List.flatMap_append

theorem cutAt_of_above (h : ∀ e ∈ es, frm ≤ e.firstBlock) : cutAt frm es = [] :=
  List.filterMap_eq_nil_iff.mpr fun e he => Extent.cut_eq_none.mpr (h e he)

theorem cutAt_eq_nil : cutAt frm es = [] ↔ ∀ e ∈ es, frm ≤ e.firstBlock := by
  simp only [cutAt, List.filterMap_eq_nil_iff, Extent.cut_eq_none]

theorem cutAt_of_below (hsound : ∀ e ∈ es, e.Sound)
    (h : ∀ e ∈ es, e.firstBlock + e.len ≤ frm) : cutAt frm es = es := by
  rw [cutAt]
  conv_rhs => rw [← List.filterMap_some (l := es)]
  refine List.filterMap_congr fun e he => ?_
  have hpos := (hsound e he).pos
  have hle := h e he
  rw [Extent.cut, if_neg (by omega), if_pos hle]

theorem goneFrom_of_above (h : ∀ e ∈ es, frm ≤ e.firstBlock) :
    goneFrom frm es = es.flatMap Extent.blocks := by
  refine List.flatMap_congr fun e he => ?_
  rw [← Extent.blocks_cut frm e, Extent.cut_eq_none.mpr (h e he)]
  rfl

theorem goneFrom_of_below (h : ∀ e ∈ es, e.firstBlock + e.len ≤ frm) : goneFrom frm es = [] := by
  refine List.flatMap_eq_nil_iff.mpr fun e he => ?_
  have hle := h e he
  rw [Extent.gone, Nat.sub_eq_zero_of_le (by omega : e.len ≤ frm - e.firstBlock)]
  rfl

theorem cutAt_cons {e : Extent} : cutAt frm (e :: es) = (e.cut frm).toList ++ cutAt frm es := by
  cases hcut : e.cut frm <;> simp [cutAt, hcut]

/-- A cut gives back the blocks that it does not keep. -/
theorem blocks_perm_cutAt (frm : ℕ) (es : List Extent) :
    (es.flatMap Extent.blocks).Perm
      (goneFrom frm es ++ (cutAt frm es).flatMap Extent.blocks) := by
  induction es with
  | nil => exact List.Perm.refl _
  | cons e rest ih =>
      have hcons : goneFrom frm (e :: rest) = e.gone frm ++ goneFrom frm rest := rfl
      rw [List.flatMap_cons, cutAt_cons, hcons, List.flatMap_append, ← Extent.blocks_cut frm e]
      refine List.perm_iff_count.mpr fun b => ?_
      have hcount := ih.count_eq b
      simp only [List.count_append] at hcount ⊢
      omega

theorem mapOf_append : mapOf (as ++ bs) b = (mapOf as b).or (mapOf bs b) := by
  simp [mapOf, List.find?_append, Option.map_or]

/-- **A cut takes away the blocks from one on**, and no other. -/
theorem mapOf_cutAt : mapOf (cutAt frm es) b = if b < frm then mapOf es b else none := by
  induction es with
  | nil => simp [mapOf, cutAt]
  | cons e rest ih =>
      have hcons : mapOf (e :: rest) b = (mapOf [e] b).or (mapOf rest b) := @mapOf_append b [e] rest
      have hone : mapOf (e.cut frm).toList b = if b < frm then mapOf [e] b else none := by
        cases hcut : e.cut frm with
        | none =>
            have hle := Extent.cut_eq_none.mp hcut
            have hnone (hlt : b < frm) : mapOf [e] b = none := by
              rw [mapOf_eq_none]
              intro e' he'
              obtain rfl := List.mem_singleton.mp he'
              omega
            split_ifs with hlt
            · exact (hnone hlt).symm
            · rfl
        | some e' =>
            obtain ⟨hfirst, hstart, hlen, hstate⟩ := Extent.cut_fields hcut
            have habove : ¬ frm ≤ e.firstBlock := by
              rw [← Extent.cut_eq_none, hcut]
              exact Option.some_ne_none e'
            simp only [Option.toList_some, mapOf, List.find?_singleton, hfirst, hlen]
            by_cases hlt : b < frm
            · have hiff : e.firstBlock ≤ b ∧ b < e.firstBlock + min e.len (frm - e.firstBlock) ↔
                  e.firstBlock ≤ b ∧ b < e.firstBlock + e.len := by omega
              simp only [hiff, if_pos hlt]
              split_ifs <;> simp [hfirst, hstart, hstate]
            · have hnot : ¬ (e.firstBlock ≤ b ∧
                  b < e.firstBlock + min e.len (frm - e.firstBlock)) := by omega
              simp [hnot, hlt]
      rw [cutAt_cons, mapOf_append, hone, ih, hcons]
      split_ifs <;> rfl

/-- What a cut leaves is in order still, before what was behind it. -/
theorem Ordered.cut (h : Ordered (as ++ bs)) : Ordered (cutAt frm as ++ bs) := by
  have hshorter {e e' : Extent} (he : e.cut frm = some e') (hpos : 0 < e.len) :
      e'.firstBlock = e.firstBlock ∧ e'.len ≤ e.len ∧ 0 < e'.len := by
    obtain ⟨hfirst, -, hlen, -⟩ := Extent.cut_fields he
    have habove : ¬ frm ≤ e.firstBlock := by
      rw [← Extent.cut_eq_none, he]
      exact Option.some_ne_none e'
    omega
  obtain ⟨has, hbs, hcross⟩ := Ordered.append.mp h
  refine Ordered.append.mpr ⟨⟨?_, ?_⟩, hbs, ?_⟩
  · intro e' he'
    obtain ⟨e, he, hcut⟩ := List.mem_filterMap.mp he'
    have hsound := has.sound e he
    obtain ⟨hfirst, hle, hpos⟩ := hshorter hcut hsound.pos
    have hfits := hsound.fits
    exact ⟨hpos, by omega⟩
  · refine List.pairwise_filterMap.mpr (has.apart.imp_of_mem fun {a a'} ha ha' hle c hc c' hc' => ?_)
    have := hshorter hc (has.sound a ha).pos
    have := hshorter hc' (has.sound a' ha').pos
    omega
  · intro e' he' e'' he''
    obtain ⟨e, he, hcut⟩ := List.mem_filterMap.mp he'
    have := hshorter hcut (has.sound e he).pos
    have := hcross e he e'' he''
    omega

end Extents
