import Mathlib.Data.List.Basic
import OpenExt4.Xattr.Area

set_option autoImplicit false

/-! # Chains of entries

The entries of an area follow each other up to a marker. Each walk of `ext4_xattr.c` goes along that
chain, so each of them is a fold of its list of positions; an area that was accepted has its chain
below the values. -/

namespace Ext4.Xattr

open Bytes

variable {n : ℕ} {buf buf' : Buf n} {a : Area} {p c last base m : ℕ} {ps : List ℕ}

/-! ## Chains -/

/-- The entries from `p` on stand at `ps`, and the marker after them at `last`. -/
inductive Entries (buf : Buf n) : ℕ → List ℕ → ℕ → Prop where
  | nil {p : ℕ} : isLastEntry buf p → Entries buf p [] p
  | cons {p : ℕ} {ps : List ℕ} {last : ℕ} :
      ¬ isLastEntry buf p → Entries buf (next buf p) ps last → Entries buf p (p :: ps) last

theorem le_xattrLen (l : ℕ) : 16 + l ≤ xattrLen l := by
  unfold xattrLen
  omega

theorem le_next (buf : Buf n) (p : ℕ) : p + 16 + nameLen buf p ≤ next buf p := by
  have hlen := le_xattrLen (nameLen buf p)
  unfold next
  omega

theorem Entries.le (h : Entries buf p ps last) : p ≤ last := by
  induction h with
  | nil _ => exact le_rfl
  | @cons p ps last _ _ ih =>
      have hnext := le_next buf p
      omega

theorem Entries.isLast (h : Entries buf p ps last) : isLastEntry buf last := by
  induction h with
  | nil hlast => exact hlast
  | cons _ _ ih => exact ih

theorem Entries.length_le (h : Entries buf p ps last) : p + 16 * ps.length ≤ last := by
  induction h with
  | nil _ => simp
  | @cons p ps last _ _ ih =>
      have hnext := le_next buf p
      rw [List.length_cons]
      omega

/-- An entry of the chain lies in it, up to the next one. -/
theorem Entries.mem (h : Entries buf p ps last) (hc : c ∈ ps) :
    p ≤ c ∧ next buf c ≤ last ∧ ¬ isLastEntry buf c := by
  induction h with
  | nil _ => simp at hc
  | @cons p ps last hent hrest ih =>
      have hnext := le_next buf p
      rcases List.mem_cons.mp hc with rfl | hc
      · exact ⟨le_rfl, hrest.le, hent⟩
      · have hin := ih hc
        exact ⟨by omega, hin.2⟩

/-- Entries do not meet. -/
theorem Entries.apart (h : Entries buf p ps last) : ps.Pairwise fun c c' => next buf c ≤ c' := by
  induction h with
  | nil _ => exact List.Pairwise.nil
  | cons _ hrest ih => exact List.pairwise_cons.mpr ⟨fun c hc => (hrest.mem hc).1, ih⟩

theorem Entries.nodup (h : Entries buf p ps last) : ps.Nodup := by
  refine List.Pairwise.imp (fun {c c'} hle heq => ?_) h.apart
  have hnext := le_next buf c
  omega

/-- The chain depends on the names' lengths and on which entry is the marker. -/
theorem Entries.congr (h : Entries buf p ps last)
    (hlen : ∀ c ∈ ps, nameLen buf' c = nameLen buf c)
    (hent : ∀ c ∈ ps, ¬ isLastEntry buf' c) (hlast : isLastEntry buf' last) :
    Entries buf' p ps last := by
  induction h with
  | nil _ => exact .nil hlast
  | @cons p ps last _ _ ih =>
      have hnext : next buf' p = next buf p := by
        rw [next, next, hlen p List.mem_cons_self]
      refine .cons (hent p List.mem_cons_self) ?_
      rw [hnext]
      exact ih (fun c hc => hlen c (List.mem_cons_of_mem _ hc))
        (fun c hc => hent c (List.mem_cons_of_mem _ hc)) hlast

/-! ## Fields at two places -/

theorem getLE_shift {w o o' : ℕ} (h : ∀ i < w, get8 buf' (o' + i) = get8 buf (o + i)) :
    getLE w buf' o' = getLE w buf o := by
  induction w generalizing o o' with
  | zero => rfl
  | succ w ih =>
      have hhead := h 0 (by omega)
      have htail : getLE w buf' (o' + 1) = getLE w buf (o + 1) := by
        refine ih fun i hi => ?_
        have hbyte := h (i + 1) (by omega)
        rwa [Nat.add_comm i, ← Nat.add_assoc, ← Nat.add_assoc] at hbyte
      rw [getLE, getLE, htail]
      exact congrArg (fun b : UInt8 => b.toNat + 256 * getLE w buf (o + 1)) hhead

/-- The entry at `c'` of one buffer is that at `c` of another, but for the offset of its value. -/
def SameEntry (buf' : Buf n) (c' : ℕ) (buf : Buf n) (c : ℕ) : Prop :=
  ∀ i < 16 + nameLen buf c, i ≠ 2 → i ≠ 3 → get8 buf' (c' + i) = get8 buf (c + i)

variable {c' : ℕ}

theorem SameEntry.nameLen (h : SameEntry buf' c' buf c) : nameLen buf' c' = nameLen buf c := by
  have hbyte := h 0 (by omega) (by decide) (by decide)
  exact congrArg UInt8.toNat hbyte

theorem SameEntry.nameIndex (h : SameEntry buf' c' buf c) :
    nameIndex buf' c' = nameIndex buf c :=
  h 1 (by omega) (by decide) (by decide)

theorem SameEntry.valueSize (h : SameEntry buf' c' buf c) :
    valueSize buf' c' = valueSize buf c := by
  refine getLE_shift fun i hi => ?_
  rw [Nat.add_assoc, Nat.add_assoc]
  exact h (8 + i) (by omega) (by omega) (by omega)

theorem SameEntry.nameAt (h : SameEntry buf' c' buf c) : nameAt buf' c' = nameAt buf c := by
  rw [Xattr.nameAt, Xattr.nameAt, h.nameLen]
  refine List.map_congr_left fun i hi => ?_
  have hlt := List.mem_range.mp hi
  rw [Nat.add_assoc, Nat.add_assoc]
  exact h (16 + i) (by omega) (by omega) (by omega)

theorem SameEntry.trans {buf'' : Buf n} {c'' : ℕ} (h' : SameEntry buf'' c'' buf' c')
    (h : SameEntry buf' c' buf c) : SameEntry buf'' c'' buf c := by
  intro i hi h2 h3
  rw [h' i (by rw [h.nameLen]; exact hi) h2 h3, h i hi h2 h3]

theorem SameEntry.of_bytes
    (h : ∀ i < 16 + Xattr.nameLen buf c, get8 buf' (c' + i) = get8 buf (c + i)) :
    SameEntry buf' c' buf c :=
  fun i hi _ _ => h i hi

theorem nameLen_lt (buf : Buf n) (p : ℕ) : nameLen buf p < 256 := (get8 buf p).toNat_lt

theorem valueOffs_lt (buf : Buf n) (p : ℕ) : valueOffs buf p < 65536 := getLE_lt 2 buf (p + 2)

/-- The marker is an entry with no name, no index and no offset. -/
theorem isLastEntry_iff (buf : Buf n) (p : ℕ) :
    isLastEntry buf p ↔ nameLen buf p = 0 ∧ (nameIndex buf p).toNat = 0 ∧ valueOffs buf p = 0 := by
  have hword : getLE 4 buf p
      = nameLen buf p + 256 * ((nameIndex buf p).toNat + 256 * valueOffs buf p) := by
    rfl
  rw [isLastEntry, hword]
  omega

/-! ## The list of the entries -/

/-- The entries that a walk meets. -/
def entriesFrom (buf : Buf n) : ℕ → ℕ → List ℕ
  | 0, _ => []
  | fuel + 1, p => if isLastEntry buf p then [] else p :: entriesFrom buf fuel (next buf p)

/-- The marker at which it stops. -/
def endFrom (buf : Buf n) : ℕ → ℕ → ℕ
  | 0, p => p
  | fuel + 1, p => if isLastEntry buf p then p else endFrom buf fuel (next buf p)

/-- The entries of an area. -/
def entries (a : Area) (buf : Buf n) : List ℕ := entriesFrom buf n a.first

/-- The end of the entries of an area. -/
def entriesEnd (a : Area) (buf : Buf n) : ℕ := endFrom buf n a.first

/-- The least offset of a value among the entries at `ps`, at most `m`. -/
def least (buf : Buf n) (ps : List ℕ) (m : ℕ) : ℕ := ps.foldl (fun m p => lessOffs buf p m) m

variable {fuel : ℕ}

theorem Entries.entriesFrom (h : Entries buf p ps last) (hfuel : ps.length < fuel) :
    entriesFrom buf fuel p = ps := by
  induction h generalizing fuel with
  | nil hlast =>
      obtain ⟨fuel, rfl⟩ := Nat.exists_eq_add_one_of_ne_zero (Nat.ne_zero_of_lt hfuel)
      rw [Xattr.entriesFrom, if_pos hlast]
  | cons hent _ ih =>
      obtain ⟨fuel, rfl⟩ := Nat.exists_eq_add_one_of_ne_zero (Nat.ne_zero_of_lt hfuel)
      rw [Xattr.entriesFrom, if_neg hent, ih (by simpa using hfuel)]

theorem Entries.endFrom (h : Entries buf p ps last) (hfuel : ps.length < fuel) :
    endFrom buf fuel p = last := by
  induction h generalizing fuel with
  | nil hlast =>
      obtain ⟨fuel, rfl⟩ := Nat.exists_eq_add_one_of_ne_zero (Nat.ne_zero_of_lt hfuel)
      rw [Xattr.endFrom, if_pos hlast]
  | cons hent _ ih =>
      obtain ⟨fuel, rfl⟩ := Nat.exists_eq_add_one_of_ne_zero (Nat.ne_zero_of_lt hfuel)
      rw [Xattr.endFrom, if_neg hent, ih (by simpa using hfuel)]

/-- The chain of an area that ends in it is shorter than the area. -/
theorem Entries.length_lt (h : Entries buf p ps last) (hn : last + 4 ≤ n) : ps.length < n := by
  have hlength := h.length_le
  omega

theorem lessOffs_le (buf : Buf n) (p m : ℕ) : lessOffs buf p m ≤ m := by
  unfold lessOffs
  split
  · next h => exact h.2.le
  · exact le_rfl

theorem least_le (buf : Buf n) (ps : List ℕ) (m : ℕ) : least buf ps m ≤ m := by
  induction ps generalizing m with
  | nil => exact le_rfl
  | cons p ps ih => exact (ih _).trans (lessOffs_le buf p m)

theorem least_le_offs (hc : c ∈ ps) (hsize : valueSize buf c ≠ 0) :
    least buf ps m ≤ valueOffs buf c := by
  induction ps generalizing m with
  | nil => simp at hc
  | cons p ps ih =>
      rcases List.mem_cons.mp hc with rfl | hc
      · refine (least_le buf ps _).trans ?_
        change lessOffs buf c m ≤ valueOffs buf c
        unfold lessOffs
        split <;> omega
      · exact ih hc

/-! ## Walks along a chain -/

theorem touch_bind {α : Type} {lo len : ℕ} {f : Unit → Except Fault α} (hlo : a.start ≤ lo)
    (hhi : lo + len ≤ n) : (touch n a lo len >>= f) = f () := by
  rw [touch, if_pos (.inr ⟨hlo, hhi⟩)]
  rfl

theorem touch_bind_none {α : Type} {lo : ℕ} {f : Unit → Except Fault α} :
    (touch n a lo 0 >>= f) = f () := rfl

theorem touch_bind_error {α : Type} {lo len : ℕ} {f : Unit → Except Fault α}
    (h : n < lo + len) (hlen : len ≠ 0) : (touch n a lo len >>= f) = .error .outside := by
  rw [touch, if_neg (by omega)]
  rfl

theorem sub_bind {α : Type} {x y : ℕ} {f : ℕ → Except Fault α} (h : y ≤ x) :
    (sub x y >>= f) = f (x - y) := by
  rw [sub, if_neg (by omega)]
  rfl

theorem Entries.findFrom (h : Entries buf p ps last) (hstart : a.start ≤ p) (hn : last + 4 ≤ n)
    (hfuel : ps.length < fuel) (index : UInt8) (name : List UInt8) :
    findFrom a buf index name fuel p = .ok (ps.find? fun c => isNamed buf index name c) := by
  induction h generalizing fuel with
  | nil hlast =>
      obtain ⟨fuel, rfl⟩ := Nat.exists_eq_add_one_of_ne_zero (Nat.ne_zero_of_lt hfuel)
      rw [Xattr.findFrom, touch_bind hstart hn, if_pos hlast]
      rfl
  | @cons p ps last hent hrest ih =>
      obtain ⟨fuel, rfl⟩ := Nat.exists_eq_add_one_of_ne_zero (Nat.ne_zero_of_lt hfuel)
      have hnext := le_next buf p
      have hle := hrest.le
      have hshort : ps.length < fuel := by simpa using hfuel
      have hgo := ih (by omega) hn hshort
      rw [Xattr.findFrom, touch_bind hstart (by omega), if_neg hent,
        touch_bind hstart (by omega), List.find?_cons]
      by_cases hlen : nameLen buf p = name.length ∧ nameIndex buf p = index
      · rw [if_pos hlen, touch_bind (by omega) (by omega)]
        by_cases hname : nameAt buf p = name
        · rw [if_pos hname, decide_eq_true (show isNamed buf index name p from ⟨hlen, hname⟩)]
        · rw [if_neg hname, decide_eq_false (fun h : isNamed buf index name p => hname h.2), hgo]
      · rw [if_neg hlen, decide_eq_false (fun h : isNamed buf index name p => hlen h.1), hgo]

theorem Entries.listFrom (h : Entries buf p ps last) (hstart : a.start ≤ p) (hn : last + 4 ≤ n)
    (hfuel : ps.length < fuel) :
    listFrom a buf fuel p = .ok (ps.map fun c => (nameIndex buf c, nameAt buf c)) := by
  induction h generalizing fuel with
  | nil hlast =>
      obtain ⟨fuel, rfl⟩ := Nat.exists_eq_add_one_of_ne_zero (Nat.ne_zero_of_lt hfuel)
      rw [Xattr.listFrom, touch_bind hstart hn, if_pos hlast]
      rfl
  | @cons p ps last hent hrest ih =>
      obtain ⟨fuel, rfl⟩ := Nat.exists_eq_add_one_of_ne_zero (Nat.ne_zero_of_lt hfuel)
      have hnext := le_next buf p
      have hle := hrest.le
      have hshort : ps.length < fuel := by simpa using hfuel
      have hgo := ih (by omega) hn hshort
      rw [Xattr.listFrom, touch_bind hstart (by omega), if_neg hent,
        touch_bind hstart (by omega), touch_bind (by omega) (by omega), hgo]
      rfl

theorem Entries.scanFrom (h : Entries buf p ps last) (hstart : a.start ≤ p) (hn : last + 4 ≤ n)
    (hfuel : ps.length < fuel) (m : ℕ) :
    scanFrom a buf fuel p m = .ok (last, least buf ps m) := by
  induction h generalizing fuel m with
  | nil hlast =>
      obtain ⟨fuel, rfl⟩ := Nat.exists_eq_add_one_of_ne_zero (Nat.ne_zero_of_lt hfuel)
      rw [Xattr.scanFrom, touch_bind hstart hn, if_pos hlast]
      rfl
  | @cons p ps last hent hrest ih =>
      obtain ⟨fuel, rfl⟩ := Nat.exists_eq_add_one_of_ne_zero (Nat.ne_zero_of_lt hfuel)
      have hnext := le_next buf p
      have hle := hrest.le
      rw [Xattr.scanFrom, touch_bind hstart (by omega), if_neg hent,
        touch_bind hstart (by omega), ih (by omega) hn (by simpa using hfuel)]
      rfl

/-! ## Accepted areas -/

/-- What the loop of the check finds out. -/
theorem walkValid_entries {m' : ℕ} (h : walkValid buf base fuel p m = some (last, m')) :
    ∃ ps, Entries buf p ps last ∧ last + 4 ≤ n ∧
      (∀ c ∈ ps, (valueSize buf c = 0 → valueOffs buf c = 0) ∧
        base + valueOffs buf c + valueSize buf c ≤ n) ∧ m' = least buf ps m := by
  induction fuel generalizing p m with
  | zero => simp [walkValid] at h
  | succ fuel ih =>
      rw [walkValid] at h
      split_ifs at h with h4 hlast h16 hempty hvalue hnext
      · obtain ⟨rfl, rfl⟩ := Prod.mk.inj (Option.some.inj h)
        exact ⟨[], .nil hlast, by omega, by simp, rfl⟩
      · obtain ⟨ps, hps, hn, hvalues, hm⟩ := ih h
        refine ⟨p :: ps, .cons hlast hps, hn, ?_, hm⟩
        intro c hc
        rcases List.mem_cons.mp hc with rfl | hc
        · exact ⟨fun hsize => by_contra fun hoffs => hempty ⟨hsize, hoffs⟩, by omega⟩
        · exact hvalues c hc

/-- The layout that the users of an area meet. -/
structure Laid (a : Area) (buf : Buf n) (ps : List ℕ) (last : ℕ) : Prop where
  chain : Entries buf a.first ps last
  start_le : a.start ≤ a.base
  base_le : a.base ≤ a.first
  room : last + 4 ≤ n
  empty : ∀ c ∈ ps, valueSize buf c = 0 → valueOffs buf c = 0
  below : ∀ c ∈ ps, valueSize buf c ≠ 0 → last + 4 ≤ a.base + valueOffs buf c

/-- The checks accept the area. -/
def Accepted (a : Area) (buf : Buf n) : Prop :=
  a = blockArea ∧ isBlockValid buf ∨ a = ibodyArea buf ∧ isIbodyValid buf

theorem laid_of_fieldsApart {first : ℕ} (start shift : ℕ)
    (h : fieldsApart base (walkValid buf base n first (n - base)))
    (hstart : start ≤ base) (hfirst : base + shift ≤ first) :
    ∃ ps last, Laid ⟨start, base + shift, first⟩ buf ps last ∧
      ∀ c ∈ ps, base + valueOffs buf c + valueSize buf c ≤ n := by
  rcases hwalk : walkValid buf base n first (n - base) with _ | ⟨last, m'⟩
  · rw [hwalk] at h
    simp [fieldsApart] at h
  · rw [hwalk] at h
    obtain ⟨ps, hps, hn, hvalues, rfl⟩ := walkValid_entries hwalk
    have hbelow : last + 4 ≤ base + least buf ps (n - base) := by simpa [fieldsApart] using h
    refine ⟨ps, last, ⟨hps, by simp only; omega, hfirst, hn, fun c hc => (hvalues c hc).1, ?_⟩,
      fun c hc => (hvalues c hc).2⟩
    intro c hc hsize
    have hleast := least_le_offs (m := n - base) hc hsize
    simp only
    omega

theorem Accepted.laid (h : Accepted a buf) : ∃ ps last, Laid a buf ps last := by
  rcases h with ⟨rfl, h⟩ | ⟨rfl, h⟩
  · simp only [isBlockValid, Bool.and_eq_true] at h
    have hapart : fieldsApart 0 (walkValid buf 0 n 32 (n - 0)) := h.2
    obtain ⟨ps, last, hlaid, -⟩ :=
      laid_of_fieldsApart 0 0 hapart le_rfl (by decide)
    exact ⟨ps, last, hlaid⟩
  · simp only [isIbodyValid, Bool.and_eq_true] at h
    obtain ⟨ps, last, hlaid, -⟩ := laid_of_fieldsApart (ihdr buf) 4 h.2 le_rfl le_rfl
    exact ⟨ps, last, hlaid⟩

/-- In a block the users count the offsets as the check does, so every value ends in it. -/
theorem value_le_of_isBlockValid (h : isBlockValid buf) (hlaid : Laid blockArea buf ps last)
    (hc : c ∈ ps) : valueOffs buf c + valueSize buf c ≤ n := by
  simp only [isBlockValid, Bool.and_eq_true] at h
  have hapart : fieldsApart 0 (walkValid buf 0 n 32 (n - 0)) := h.2
  obtain ⟨ps', last', hlaid', hvalues⟩ :=
    laid_of_fieldsApart 0 0 hapart le_rfl (by decide)
  have hps : ps = ps' := by
    rw [← hlaid.chain.entriesFrom (hlaid.chain.length_lt hlaid.room),
      ← hlaid'.chain.entriesFrom (hlaid'.chain.length_lt hlaid'.room)]
    rfl
  have hvalue := hvalues c (hps ▸ hc)
  omega

end Ext4.Xattr
