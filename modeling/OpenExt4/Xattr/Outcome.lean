import Mathlib.Data.List.Forall2
import OpenExt4.Xattr.SetEntry

set_option autoImplicit false

/-! # The outcome of `ext4_xattr_set_entry`

The steps together: where the other entries stand afterwards, and which bytes their values are. -/

namespace Ext4.Xattr

open Bytes

variable {n : ℕ} {buf buf' : Buf n} {a : Area} {p c last m vo vs : ℕ} {ps l₁ l₂ : List ℕ}
  {index : UInt8} {name v : List UInt8}

/-! ## Before the change -/

/-- The free space of an area. -/
def freeSpace (a : Area) (buf : Buf n) (ps : List ℕ) (last : ℕ) : ℕ :=
  a.base + minOffs a buf ps - (last + 4)

/-- An entry for the value fits into the free space and what is left of the old entry. -/
def fits (a : Area) (buf : Buf n) (ps : List ℕ) (last : ℕ) (here : Option ℕ)
    (name v : List UInt8) : Prop :=
  xattrSize v.length + xattrLen name.length ≤ freeSpace a buf ps last + reusable buf here

instance (a : Area) (buf : Buf n) (ps : List ℕ) (last : ℕ) (here : Option ℕ)
    (name v : List UInt8) : Decidable (fits a buf ps last here name v) :=
  inferInstanceAs (Decidable (_ ≤ _))

theorem Laid.start_le_first (h : Laid a buf ps last) : a.start ≤ a.first :=
  h.start_le.trans h.base_le

theorem Laid.scan (h : Laid a buf ps last) :
    scanFrom a buf n a.first (n - a.base) = .ok (last, minOffs a buf ps) :=
  h.chain.scanFrom h.start_le_first h.room (h.chain.length_lt h.room) _

/-- What `ext4_xattr_set_entry` does once it may. -/
def change (a : Area) (buf : Buf n) (ps : List ℕ) (last : ℕ) (here : Option ℕ) (index : UInt8)
    (name : List UInt8) (value : Option (List UInt8)) : Except Fault (Status × Buf n) := do
  let (buf, m, last) ← clearOld a buf here (minOffs a buf ps) last
  match value, here with
  | some v, here =>
      let buf ← insertNew a buf here m last index name v
      .ok (.EOK, buf)
  | none, some p =>
      let buf ← dropEntry a buf p last
      .ok (.EOK, buf)
  | none, none => .ok (.EOK, buf)

theorem setEntry_remove_eq (h : Laid a buf ps last) :
    setEntry a buf (some p) index name none false
      = change a buf ps last (some p) index name none := by
  have hfree : last + 4 ≤ a.base + minOffs a buf ps := h.le_minOffs
  rw [setEntry, if_neg (by simp), h.scan]
  change (sub (a.base + minOffs a buf ps) (last + 4) >>= _) = _
  rw [sub_bind hfree]
  rfl

theorem setEntry_set_eq (h : Laid a buf ps last) (here : Option ℕ) (dryRun : Bool) :
    setEntry a buf here index name (some v) dryRun
      = if ¬ fits a buf ps last here name v then .ok (.ENOSPC, buf)
        else if dryRun then .ok (.EOK, buf)
        else change a buf ps last here index name (some v) := by
  have hfree : last + 4 ≤ a.base + minOffs a buf ps := h.le_minOffs
  rw [setEntry, if_neg (by simp), h.scan]
  change (sub (a.base + minOffs a buf ps) (last + 4) >>= _) = _
  rw [sub_bind hfree]
  have hroom : ((some v).any fun v => freeSpace a buf ps last + reusable buf here
      < xattrSize v.length + xattrLen name.length) = true ↔ ¬ fits a buf ps last here name v := by
    simp [fits]
  by_cases hfits : fits a buf ps last here name v
  · have hno := mt hroom.mp (not_not.mpr hfits)
    rw [if_neg (not_not.mpr hfits)]
    exact if_neg hno
  · rw [if_pos hfits]
    exact if_pos (hroom.mpr hfits)

/-! ## After it -/

/-- The new value below the others makes of the settled bytes the settled bytes with it. -/
theorem settled_new {x : ℕ} (hx : x < a.base + m + vs) :
    (if a.base + (m + vs) ≤ x + xattrSize v.length then
      v.getD (x + xattrSize v.length - (a.base + (m + vs))) 0
      else settled a buf m vo vs [] x) = settled a buf m vo vs v x := by
  have hempty : settled a buf m vo vs [] x = 0 := by
    rw [settled, if_pos hx]
    split <;> rfl
  rw [hempty, settled, if_pos hx, Nat.add_assoc]

theorem settled_old {x : ℕ} (hx : a.base + m + vs ≤ x) :
    settled a buf m vo vs v x = settled a buf m vo vs [] x := by
  have hno : ¬ x < a.base + m + vs := by omega
  rw [settled, settled, if_neg hno, if_neg hno]

/-- **A removal**: the entries behind the old one move down, the values below the old one up. -/
theorem change_remove (index : UInt8) (name : List UInt8) (h : Laid a buf (l₁ ++ p :: l₂) last) (hn : n ≤ 65536)
    (hvo : valueOffs buf p = vo) (hvs : xattrSize (valueSize buf p) = vs)
    (hfit : a.base + vo + vs ≤ n) :
    ∃ (F : Buf n) (d last' : ℕ),
      change a buf (l₁ ++ p :: l₂) last (some p) index name none = .ok (.EOK, F) ∧
      Entries F a.first (l₁ ++ l₂.map (· - d)) last' ∧ last' + 4 ≤ n ∧
      List.Forall₂ (OtherAt F buf vo vs) (l₁ ++ l₂.map (· - d)) (l₁ ++ l₂) ∧
      ∀ x, a.base + minOffs a buf (l₁ ++ p :: l₂) ≤ x →
        get8 F x = settled a buf (minOffs a buf (l₁ ++ p :: l₂)) vo vs [] x := by
  have hp : p ∈ l₁ ++ p :: l₂ := List.mem_append_right _ List.mem_cons_self
  have hmin := h.le_minOffs
  have hroom := h.room
  obtain ⟨G, hclear, hchain, hothers, hvalues⟩ := clearOld_ok h hn hp hvo hvs hfit
  obtain ⟨F, hdrop, hentries, hbefore, hbehind, hframe⟩ :=
    @dropEntry_ok n G a p last l₁ l₂ a.first hchain h.start_le_first h.room
  refine ⟨F, _, _, ?_, hentries, by omega, ?_, fun x hx => ?_⟩
  · simp only [change, hclear, bind, Except.bind, hdrop]
  · refine List.rel_append (List.forall₂_same.mpr fun c hc => ?_)
      (List.forall₂_map_left_iff.mpr (List.forall₂_same.mpr fun c hc => ?_))
    · exact (hbefore c hc).after (hothers c (List.mem_append_left _ hc))
    · exact (hbehind c hc).after
        (hothers c (List.mem_append_right _ (List.mem_cons_of_mem _ hc)))
  · rw [hframe x (by omega), hvalues x hx]

/-- **A new value** for an entry that is there: the entries stay, the values below the old one move
    up, and the new one goes below all of them. -/
theorem change_replace (index : UInt8) (h : Laid a buf (l₁ ++ p :: l₂) last) (hn : n ≤ 65536)
    (hvo : valueOffs buf p = vo) (hvs : xattrSize (valueSize buf p) = vs)
    (hfit : a.base + vo + vs ≤ n) (hindex : nameIndex buf p ≠ 0)
    (hlen : nameLen buf p = name.length)
    (hfits : fits a buf (l₁ ++ p :: l₂) last (some p) name v) :
    ∃ F : Buf n, change a buf (l₁ ++ p :: l₂) last (some p) index name (some v) = .ok (.EOK, F) ∧
      Entries F a.first (l₁ ++ p :: l₂) last ∧
      List.Forall₂ (OtherAt F buf vo vs) (l₁ ++ l₂) (l₁ ++ l₂) ∧
      ∀ x, a.base + minOffs a buf (l₁ ++ p :: l₂) ≤ x →
        get8 F x = settled a buf (minOffs a buf (l₁ ++ p :: l₂)) vo vs v x := by
  have hp : p ∈ l₁ ++ p :: l₂ := List.mem_append_right _ List.mem_cons_self
  have hmin := h.le_minOffs
  have hroom := h.room
  have hbase := h.le_last
  have hin := h.chain.mem hp
  have hpnext := le_next buf p
  obtain ⟨G, hclear, hchain, hothers, hvalues⟩ := clearOld_ok h hn hp hvo hvs hfit
  generalize hm : minOffs a buf (l₁ ++ p :: l₂) = m at *
  have hend : a.base + (m + vs) ≤ n := by
    by_cases hzero : vo = 0
    · have hsize : vs = 0 := by
        rw [← hvs, (h.offs_eq_zero hp).mp (hvo.trans hzero)]
        rfl
      have hle := h.minOffs_le
      omega
    · have hle := h.minOffs_le_offs hp (hvo ▸ hzero)
      omega
  have hsize : last + 4 + xattrSize v.length ≤ a.base + (m + vs) := by
    simp only [fits, freeSpace, reusable, hm, hvs, hlen] at hfits
    omega
  obtain ⟨R, hreuse, hreused⟩ := reuseEntry_ok a G (newOffs (m + vs) v.length)
    v.length (h.start_le_first.trans hin.1) (by omega)
  obtain ⟨F, hwrite, hframe, hnew⟩ := @writeNew_ok n R a last (m + vs) v h.start_le hend hsize hbase
  have hindexG : nameIndex G p ≠ 0 := by
    rw [(hothers p hp).1.nameIndex]
    exact hindex
  obtain ⟨hentries, hkept⟩ := hchain.reused F hp hindexG fun x hx hlt => by
    rw [hframe x (.inl hlt), hreused x hx]
  have hapart := List.nodup_middle.mp hchain.nodup
  refine ⟨F, ?_, hentries, List.forall₂_same.mpr fun c hc => ?_, fun x hx => ?_⟩
  · rw [change, hm, hclear]
    change (insertNew a G (some p) (m + vs) last index name v >>= _) = _
    rw [insertNew_some (by omega), hreuse]
    change (writeValue a R (newOffs (m + vs) v.length) v >>= _) = _
    rw [hwrite]
    rfl
  · have hne : c ≠ p := by
      rintro rfl
      exact (List.nodup_cons.mp hapart).1 hc
    have hmem : c ∈ l₁ ++ p :: l₂ := by
      rcases List.mem_append.mp hc with hc | hc
      · exact List.mem_append_left _ hc
      · exact List.mem_append_right _ (List.mem_cons_of_mem _ hc)
    exact (hkept c hmem hne).after (hothers c hmem)
  · by_cases hlow : x < a.base + m + vs
    · rw [hnew x (by omega) (by omega), hreused x (.inr (by omega)), hvalues x hx,
        settled_new hlow]
    · rw [hframe x (.inr (by omega)), hreused x (.inr (by omega)), hvalues x hx]
      exact (settled_old (by omega)).symm

/-- **A new entry** goes behind the others and its value below theirs. -/
theorem change_insert (h : Laid a buf ps last) (hindex : index ≠ 0)
    (hfits : fits a buf ps last none name v) :
    ∃ (F : Buf n) (last' : ℕ), change a buf ps last none index name (some v) = .ok (.EOK, F) ∧
      Entries F a.first (ps ++ [last]) last' ∧ last' + 4 ≤ n ∧
      List.Forall₂ (OtherAt F buf 0 0) ps ps ∧
      ∀ x, a.base + minOffs a buf ps ≤ x → get8 F x = get8 buf x := by
  have hmin := h.le_minOffs
  have hmn := h.minOffs_le
  have hbase := h.le_last
  have hstart := h.start_le
  have hpos := le_xattrLen name.length
  generalize hm : minOffs a buf ps = m at *
  have hsize : last + 4 + xattrLen name.length + xattrSize v.length ≤ a.base + m := by
    simp only [fits, freeSpace, reusable, hm] at hfits
    omega
  obtain ⟨R, hentry, ⟨last', hchain, hend⟩, hothers, hkept⟩ := newEntry_ok
    a (newOffs m v.length) v.length name h.chain hindex
    (by omega) (by omega)
  obtain ⟨F, hwrite, hframe, -⟩ := @writeNew_ok n R a (last + xattrLen name.length) m v hstart hmn
    (by omega) (by omega)
  have hsame : ∀ x < last' + 4, get8 F x = get8 R x := fun x hx => hframe x (by omega)
  refine ⟨F, last', ?_, hchain.of_agree fun x _ hx => hsame x hx, by omega,
    List.forall₂_same.mpr fun c hc => ?_, fun x hx => ?_⟩
  · rw [change, hm]
    change (insertNew a buf none m last index name v >>= _) = _
    rw [insertNew_none (by omega), hentry]
    change (writeValue a R (newOffs m v.length) v >>= _) = _
    rw [hwrite]
    rfl
  · exact (hchain.otherAt (List.mem_append_left _ hc) fun x hx => hsame x (by omega)).after
      (hothers c hc)
  · rw [hframe x (by omega), hkept x (by omega)]

end Ext4.Xattr
