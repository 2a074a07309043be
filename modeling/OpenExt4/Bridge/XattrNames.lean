import Mathlib.Data.List.TakeWhile
import Mathlib.Tactic.SplitIfs
import OpenExt4.Crypto.Medium

set_option autoImplicit false

/-! # Attribute names

ext4 stores an attribute as a namespace index and a suffix, macOS knows it by one name. The bridge
takes a name apart (`xattr_split`), the listing puts it together again, and the extension strips the
user namespace off what is listed. For which attributes that is a round trip. -/

namespace Ext4b

open Luks (ascii cString)

/-! ## The source -/

/-- An attribute on disk: `e_name_index` and the bytes of its name. -/
structure Attr where
  nameIndex : ℕ
  name : List UInt8
  deriving DecidableEq

/-- `EXT4_XATTR_INDEX_USER`, and `EXT4B_XATTR_INDEX_USER`. -/
def EXT4_XATTR_INDEX_USER : ℕ := 1

/-- `prefix_tbl`. -/
def prefixTbl : List (List UInt8 × ℕ) := [
  (ascii "user.", EXT4_XATTR_INDEX_USER),
  (ascii "system.posix_acl_access", 2),
  (ascii "system.posix_acl_default", 3),
  (ascii "trusted.", 4),
  (ascii "security.", 6),
  (ascii "system.", 7),
  (ascii "system.richacl", 8)]

/-- What `ext4_extract_xattr_name` returns: the pointer, as an offset into the full name, and what it
    stores behind its other arguments. -/
structure Extracted where
  sub : Option ℕ
  nameIndex : ℕ
  nameLen : ℕ
  found : Bool

/-- Its loop over the table. -/
def extractLoop (full : List UInt8) : List (List UInt8 × ℕ) → Extracted
  | [] => { sub := none, nameIndex := 0, nameLen := 0, found := false }
  | (pre, index) :: rest =>
    if full.length ≥ pre.length ∧ full.take pre.length = pre then
      let requireName := pre.getLast? = some 0x2e
      if full.length - pre.length = 0 ∧ requireName then
        { sub := none, nameIndex := index, nameLen := full.length - pre.length, found := false }
      else
        { sub := if requireName then some pre.length else none
          nameIndex := index, nameLen := full.length - pre.length, found := true }
    else extractLoop full rest

/-- `ext4_extract_xattr_name`. -/
def ext4ExtractXattrName (full : List UInt8) : Extracted :=
  if full.length = 0 then { sub := none, nameIndex := 0, nameLen := 0, found := false }
  else extractLoop full prefixTbl

/-- `ext4_get_xattr_name_prefix`, with the empty string for its null pointer and length 0. -/
def ext4GetXattrNamePrefix (index : ℕ) : List UInt8 :=
  match prefixTbl.find? (·.2 = index) with
  | some (pre, _) => pre
  | none => []

/-- What `xattr_split` hands to a call on an attribute. -/
structure Split where
  index : ℕ
  sub : Option ℕ
  len : ℕ

/-- `xattr_split`. -/
def xattrSplit (name : List UInt8) : Split :=
  let e := ext4ExtractXattrName name
  if e.found then { index := e.nameIndex, sub := e.sub, len := e.nameLen }
  else { index := EXT4_XATTR_INDEX_USER, sub := some 0, len := name.length }

/-- The attribute a get, a set or a remove looks for: `len` bytes from the pointer on. From a null
    pointer none can be read. -/
def Split.attr (s : Split) (name : List UInt8) : Option Attr :=
  match s.sub with
  | some off => some { nameIndex := s.index, name := (name.drop off).take s.len }
  | none => if s.len = 0 then some { nameIndex := s.index, name := [] } else none

/-- The full name `ext4b_listxattr` reports, where it fits the buffer. -/
def fullName (a : Attr) : Option (List UInt8) :=
  let pre := ext4GetXattrNamePrefix a.nameIndex
  if pre.length + a.name.length ≥ 256 then none else some (pre ++ a.name)

/-- `collectXattr` of the extension. -/
def collectXattr (bytes : List UInt8) : List UInt8 :=
  let userPrefix := ascii "user."
  if bytes.length > userPrefix.length ∧ bytes.take userPrefix.length = userPrefix then
    bytes.drop userPrefix.length
  else bytes

/-- The name of an attribute in the listing. -/
def reported (a : Attr) : Option (List UInt8) := (fullName a).map collectXattr

/-- The listing of an inode. -/
def xattrs (attrs : List Attr) : List (List UInt8) := attrs.filterMap reported

/-- The attribute a name of macOS designates: `string` of a file name is there if its bytes are
    text, and the bridge gets it as a C string. -/
def designated (isText : List UInt8 → Bool) (name : List UInt8) : Option Attr :=
  if isText name then (xattrSplit (cString name)).attr (cString name) else none

/-! ## Round trips -/

/-- The namespaces whose attributes have names of their own. -/
def dotted : List (List UInt8) := [ascii "user.", ascii "trusted.", ascii "security.", ascii "system."]

/-- The attributes whose whole name is in the table. -/
def aclNames : List (List UInt8) := [ascii "system.posix_acl_access", ascii "system.posix_acl_default"]

/-- A full name with a namespace in front. -/
def CarriesNamespace (full : List UInt8) : Prop :=
  (∃ p ∈ dotted, p <+: full ∧ p ≠ full) ∨ ∃ p ∈ aclNames, p <+: full

instance (full : List UInt8) : Decidable (CarriesNamespace full) := inferInstanceAs (Decidable (_ ∨ _))

/-- An index of the table. -/
def Known (a : Attr) : Prop := a.nameIndex ∈ prefixTbl.map (·.2)

instance (a : Attr) : Decidable (Known a) := inferInstanceAs (Decidable (_ ∈ _))

/-- An attribute whose reported name reads as the name of that attribute only. -/
def OwnName (a : Attr) : Prop :=
  (a.nameIndex = 1 ∧ a.name ≠ [] ∧ ¬ CarriesNamespace a.name) ∨
    ((a.nameIndex = 2 ∨ a.nameIndex = 3) ∧ a.name = []) ∨
    ((a.nameIndex = 4 ∨ a.nameIndex = 6) ∧ a.name ≠ []) ∨
    (a.nameIndex = 7 ∧ a.name ≠ [] ∧
      ¬ ascii "posix_acl_access" <+: a.name ∧ ¬ ascii "posix_acl_default" <+: a.name)

instance (a : Attr) : Decidable (OwnName a) := inferInstanceAs (Decidable (_ ∨ _))

/-! ## The row of a name -/

/-- The row of the table a full name is taken apart with. -/
def rowOf (full : List UInt8) : Option (List UInt8 × ℕ) := prefixTbl.find? (·.1 <+: full)

theorem extractLoop_eq (full : List UInt8) (tbl : List (List UInt8 × ℕ)) :
    extractLoop full tbl = match tbl.find? (·.1 <+: full) with
      | none => { sub := none, nameIndex := 0, nameLen := 0, found := false }
      | some (pre, index) =>
        if full.length - pre.length = 0 ∧ pre.getLast? = some 0x2e then
          { sub := none, nameIndex := index, nameLen := full.length - pre.length, found := false }
        else
          { sub := if pre.getLast? = some 0x2e then some pre.length else none
            nameIndex := index, nameLen := full.length - pre.length, found := true } := by
  induction tbl with
  | nil => rfl
  | cons row rest ih =>
      have hlead : (full.length ≥ row.1.length ∧ full.take row.1.length = row.1)
          ↔ row.1 <+: full := by
        rw [List.prefix_iff_eq_take]
        refine ⟨fun h => h.2.symm, fun h => ⟨?_, h.symm⟩⟩
        have hlen := congrArg List.length h
        rw [List.length_take] at hlen
        omega
      rw [extractLoop, List.find?_cons]
      by_cases h : row.1 <+: full
      · rw [if_pos (hlead.mpr h), decide_eq_true h]
      · rw [if_neg (hlead.not.mpr h), decide_eq_false h, ih]

/-- **What a name is taken apart into.** -/
theorem split_eq (full : List UInt8) : (xattrSplit full).attr full = match rowOf full with
    | none => some { nameIndex := 1, name := full }
    | some (pre, index) =>
      if pre.getLast? = some 0x2e then
        if pre = full then some { nameIndex := 1, name := full }
        else some { nameIndex := index, name := full.drop pre.length }
      else if pre = full then some { nameIndex := index, name := [] }
      else none := by
  have hwhole : (Split.attr { index := 1, sub := some 0, len := full.length } full)
      = some { nameIndex := 1, name := full } := by
    simp [Split.attr]
  unfold xattrSplit ext4ExtractXattrName
  by_cases hnil : full.length = 0
  · have hrow : rowOf full = none := by
      rw [List.eq_nil_of_length_eq_zero hnil]
      decide
    rw [if_pos hnil, hrow]
    exact hwhole
  rw [if_neg hnil, extractLoop_eq]
  change _ = match rowOf full with
    | none => _
    | some (pre, index) => _
  unfold rowOf
  cases hrow : prefixTbl.find? (·.1 <+: full) with
  | none => exact hwhole
  | some row =>
      obtain ⟨pre, index⟩ := row
      have hpre : pre <+: full := by simpa using List.find?_some hrow
      have heq : full.length - pre.length = 0 ↔ pre = full := by
        refine ⟨fun h => hpre.eq_of_length_le (by omega), fun h => ?_⟩
        rw [h, Nat.sub_self]
      dsimp only
      by_cases hdot : pre.getLast? = some 0x2e
      · by_cases hfull : pre = full
        · simp only [if_pos (And.intro (heq.mpr hfull) hdot), if_pos hdot, if_pos hfull,
            Bool.false_eq_true, if_false]
          exact hwhole
        · simp only [heq, hfull, false_and, if_false, if_true, hdot]
          simp [Split.attr]
      · by_cases hfull : pre = full
        · simp only [hdot, and_false, if_false, if_true, if_pos hfull, heq.mpr hfull]
          simp [Split.attr]
        · simp only [hdot, and_false, if_false, if_true, if_neg hfull]
          simp [Split.attr, heq, hfull]

theorem not_prefix_append {p q x : List UInt8} (h : ¬ q <+: p ∧ ¬ p <+: q) : ¬ q <+: p ++ x :=
  fun hq => (List.prefix_or_prefix_of_prefix hq (List.prefix_append p x)).elim h.1 h.2

/-- The first row that fits is the row of the name. -/
theorem rowOf_append {k : ℕ} {p x : List UInt8} {index : ℕ} (hrow : prefixTbl[k]? = some (p, index))
    (h : ∀ row ∈ prefixTbl.take k, ¬ row.1 <+: p ++ x) : rowOf (p ++ x) = some (p, index) := by
  obtain ⟨hk, hrow⟩ := List.getElem?_eq_some_iff.mp hrow
  have htbl : prefixTbl = prefixTbl.take k ++ (p, index) :: prefixTbl.drop (k + 1) := by
    rw [← hrow, ← List.drop_eq_getElem_cons hk, List.take_append_drop]
  have hnone : (prefixTbl.take k).find? (·.1 <+: p ++ x) = none := by
    rw [List.find?_eq_none]
    intro row hmem
    simpa using h row hmem
  rw [rowOf, htbl, List.find?_append, hnone, Option.none_or, List.find?_cons_of_pos]
  simp

theorem mem_of_rowOf {full p : List UInt8} {index : ℕ} (h : rowOf full = some (p, index)) :
    (p, index) ∈ prefixTbl ∧ p <+: full :=
  ⟨List.mem_of_find?_eq_some h, by simpa using List.find?_some h⟩

/-- The last row is never reached: the row of all system attributes is before it. -/
theorem rowOf_ne_richacl (full : List UInt8) (index : ℕ) :
    rowOf full ≠ some (ascii "system.richacl", index) := by
  intro h
  have hsystem : ascii "system." <+: full :=
    List.IsPrefix.trans (by decide) (mem_of_rowOf h).2
  have hsome : ((prefixTbl.take 6).find? (·.1 <+: full)).isSome := by
    rw [List.find?_isSome]
    exact ⟨(ascii "system.", 7), by decide, by simpa using hsystem⟩
  obtain ⟨row, hrow⟩ := Option.isSome_iff_exists.mp hsome
  have htbl : prefixTbl = prefixTbl.take 6 ++ prefixTbl.drop 6 := (List.take_append_drop 6 _).symm
  rw [rowOf, htbl, List.find?_append, hrow, Option.some_or, Option.some.injEq] at h
  have hmem := List.mem_of_find?_eq_some hrow
  rw [h] at hmem
  have hnot : ∀ row ∈ prefixTbl.take 6, row.1 ≠ ascii "system.richacl" := by decide
  exact hnot _ hmem rfl

/-- A name carries a namespace if it has a row, and more than its prefix where that needs it. -/
theorem carriesNamespace_iff (full : List UInt8) : CarriesNamespace full ↔
    ∃ p index, rowOf full = some (p, index) ∧ (p.getLast? = some 0x2e → p ≠ full) := by
  have hapart : ∀ p ∈ dotted ++ aclNames, ∀ row ∈ prefixTbl, row.1.getLast? = some 0x2e →
      p <+: row.1 → p = row.1 := by decide
  constructor
  · intro h
    obtain ⟨p, hp, hpre, hne⟩ : ∃ p ∈ dotted ++ aclNames, p <+: full ∧ (p ∈ dotted → p ≠ full) := by
      rcases h with ⟨p, hp, hpre, hne⟩ | ⟨p, hp, hpre⟩
      · exact ⟨p, List.mem_append_left _ hp, hpre, fun _ => hne⟩
      · have hnot : ∀ p ∈ aclNames, p ∉ dotted := by decide
        exact ⟨p, List.mem_append_right _ hp, hpre, fun hd => absurd hd (hnot p hp)⟩
    have hall : ∀ p ∈ dotted ++ aclNames, ∃ row ∈ prefixTbl, row.1 = p := by decide
    obtain ⟨row, hrow, rfl⟩ := hall p hp
    have hsome : (rowOf full).isSome := by
      rw [rowOf, List.find?_isSome]
      exact ⟨row, hrow, by simpa using hpre⟩
    obtain ⟨⟨q, index⟩, hq⟩ := Option.isSome_iff_exists.mp hsome
    obtain ⟨hqmem, hqpre⟩ := mem_of_rowOf hq
    refine ⟨q, index, hq, fun hdot heq => ?_⟩
    have hsame := hapart row.1 hp (q, index) hqmem hdot (heq ▸ hpre)
    have hdotted : ∀ row ∈ prefixTbl, row.1.getLast? = some 0x2e → row.1 ∈ dotted := by decide
    exact hne (hsame ▸ hdotted (q, index) hqmem hdot) (hsame.trans heq)
  · rintro ⟨q, index, hq, hne⟩
    obtain ⟨hqmem, hqpre⟩ := mem_of_rowOf hq
    have hkinds : ∀ row ∈ prefixTbl, (row.1.getLast? = some 0x2e ∧ row.1 ∈ dotted) ∨
        row.1 ∈ aclNames ∨ row.1 = ascii "system.richacl" := by decide
    rcases hkinds (q, index) hqmem with ⟨hdot, hd⟩ | hacl | hrich
    · exact Or.inl ⟨q, hd, hqpre, hne hdot⟩
    · exact Or.inr ⟨q, hacl, hqpre⟩
    · dsimp only at hrich
      subst hrich
      exact absurd hq (rowOf_ne_richacl full index)

/-! ## Names put together again -/

/-- A name is taken apart inside itself, and put together again it is itself, behind the user
    namespace where it carries none. -/
def SplitsBack (full : List UInt8) : Prop :=
  (∀ off, (xattrSplit full).sub = some off → off + (xattrSplit full).len ≤ full.length) ∧
    ∃ a, (xattrSplit full).attr full = some a ∧ ext4GetXattrNamePrefix a.nameIndex ++ a.name
      = if CarriesNamespace full then full else ascii "user." ++ full

theorem split_inside (full : List UInt8) (off : ℕ) (h : (xattrSplit full).sub = some off) :
    off + (xattrSplit full).len ≤ full.length := by
  have hwhole : some 0 = some off → off + full.length ≤ full.length := by
    intro h
    cases h
    omega
  unfold xattrSplit ext4ExtractXattrName at h ⊢
  by_cases hnil : full.length = 0
  · rw [if_pos hnil] at h ⊢
    exact hwhole h
  rw [if_neg hnil, extractLoop_eq] at h ⊢
  cases hrow : prefixTbl.find? (·.1 <+: full) with
  | none =>
      rw [hrow] at h
      exact hwhole h
  | some row =>
      obtain ⟨pre, index⟩ := row
      have hpre : pre <+: full := by simpa using List.find?_some hrow
      have hlen := hpre.length_le
      rw [hrow] at h
      dsimp only at h ⊢
      by_cases hcond : full.length - pre.length = 0 ∧ pre.getLast? = some 0x2e
      · simp only [if_pos hcond, Bool.false_eq_true, if_false] at h ⊢
        exact hwhole h
      · simp only [if_neg hcond, if_true] at h ⊢
        split at h
        · cases h
          omega
        · cases h

/-- **Taking a name apart** is undone by the prefixes, for every name but those that begin with the
    name of an access list and go on. -/
theorem splitsBack {full : List UInt8} (hacl : ∀ p ∈ aclNames, p <+: full → p = full) :
    SplitsBack full := by
  refine ⟨split_inside full, ?_⟩
  have htable : ∀ row ∈ prefixTbl, ext4GetXattrNamePrefix row.2 = row.1 := by decide
  have huser : ext4GetXattrNamePrefix 1 = ascii "user." := by decide
  rw [split_eq]
  cases hrow : rowOf full with
  | none =>
      have hno : ¬ CarriesNamespace full := by
        rw [carriesNamespace_iff, hrow]
        rintro ⟨_, _, h, -⟩
        cases h
      exact ⟨_, rfl, by rw [if_neg hno, huser]⟩
  | some row =>
      obtain ⟨pre, index⟩ := row
      obtain ⟨hmem, hpre⟩ := mem_of_rowOf hrow
      have hcarries : CarriesNamespace full ↔ (pre.getLast? = some 0x2e → pre ≠ full) := by
        rw [carriesNamespace_iff, hrow]
        refine ⟨?_, fun h => ⟨pre, index, rfl, h⟩⟩
        rintro ⟨_, _, heq, h⟩
        cases heq
        exact h
      dsimp only
      by_cases hdot : pre.getLast? = some 0x2e
      · by_cases hfull : pre = full
        · have hno : ¬ CarriesNamespace full := fun h => hcarries.mp h hdot hfull
          rw [if_pos hdot, if_pos hfull]
          exact ⟨_, rfl, by rw [if_neg hno, huser]⟩
        · have hyes : CarriesNamespace full := hcarries.mpr fun _ => hfull
          rw [if_pos hdot, if_neg hfull]
          refine ⟨_, rfl, ?_⟩
          rw [if_pos hyes, htable _ hmem]
          exact (List.prefix_iff_eq_append.mp hpre)
      · have hyes : CarriesNamespace full := hcarries.mpr fun h => absurd h hdot
        have hkinds : ∀ row ∈ prefixTbl, row.1.getLast? = some 0x2e ∨ row.1 ∈ aclNames ∨
            row.1 = ascii "system.richacl" := by decide
        have hfull : pre = full := by
          rcases hkinds _ hmem with h | h | h
          · exact absurd h hdot
          · exact hacl pre h hpre
          · dsimp only at h
            subst h
            exact absurd hrow (rowOf_ne_richacl full index)
        rw [if_neg hdot, if_pos hfull]
        refine ⟨_, rfl, ?_⟩
        rw [if_pos hyes, htable _ hmem, List.append_nil]
        exact hfull

/-! ## Attributes found again -/

/-- A full name whose row is its own prefix. -/
theorem split_append {p x : List UInt8} {index : ℕ} (h : rowOf (p ++ x) = some (p, index)) :
    (xattrSplit (p ++ x)).attr (p ++ x) =
      if p.getLast? = some 0x2e then
        if x = [] then some { nameIndex := 1, name := p } else some { nameIndex := index, name := x }
      else if x = [] then some { nameIndex := index, name := [] } else none := by
  have hfull : p = p ++ x ↔ x = [] := List.self_eq_append_right
  rw [split_eq, h]
  dsimp only
  simp only [hfull, List.drop_left]
  by_cases hx : x = []
  · simp [hx]
  · simp [hx]

/-- The extension leaves the other namespaces alone. -/
theorem collectXattr_append {p x : List UInt8}
    (h : ¬ ascii "user." <+: p ∧ ¬ p <+: ascii "user.") : collectXattr (p ++ x) = p ++ x := by
  unfold collectXattr
  rw [if_neg]
  rintro ⟨-, htake⟩
  exact not_prefix_append h (List.prefix_iff_eq_take.mpr htake.symm)

/-- What is listed of a user attribute. -/
theorem collectXattr_user {x : List UInt8} (hx : x ≠ []) : collectXattr (ascii "user." ++ x) = x := by
  have hlen : 0 < x.length := List.length_pos_iff.mpr hx
  unfold collectXattr
  rw [if_pos ⟨by rw [List.length_append]; omega, List.take_left⟩, List.drop_left]

/-- The prefix of row `k` is no prefix of the user namespace or of a row before it, nor the other way
    round. -/
def RowApart (k : ℕ) (p : List UInt8) : Prop :=
  (¬ ascii "user." <+: p ∧ ¬ p <+: ascii "user.") ∧
    ∀ row ∈ prefixTbl.take k, ¬ row.1 <+: p ∧ ¬ p <+: row.1

instance (k : ℕ) (p : List UInt8) : Decidable (RowApart k p) := inferInstanceAs (Decidable (_ ∧ _))

/-- An attribute of another namespace than the user's, listed and taken apart. -/
theorem split_other {k : ℕ} {p x : List UInt8} {index : ℕ} (hrow : prefixTbl[k]? = some (p, index))
    (huser : ¬ ascii "user." <+: p ∧ ¬ p <+: ascii "user.")
    (hbefore : ∀ row ∈ prefixTbl.take k, ¬ row.1 <+: p ++ x) :
    (xattrSplit (collectXattr (p ++ x))).attr (collectXattr (p ++ x)) =
      if p.getLast? = some 0x2e then
        if x = [] then some { nameIndex := 1, name := p } else some { nameIndex := index, name := x }
      else if x = [] then some { nameIndex := index, name := [] } else none := by
  rw [collectXattr_append huser, split_append (rowOf_append hrow hbefore)]

/-- A user attribute, listed and taken apart. -/
theorem split_user (x : List UInt8) :
    (xattrSplit (collectXattr (ascii "user." ++ x))).attr (collectXattr (ascii "user." ++ x))
        = some { nameIndex := 1, name := x } ↔ x ≠ [] ∧ ¬ CarriesNamespace x := by
  by_cases hx : x = []
  · subst hx
    have hlone : collectXattr (ascii "user." ++ []) = ascii "user." := by decide
    have hsplit : (xattrSplit (ascii "user.")).attr (ascii "user.")
        = some { nameIndex := 1, name := ascii "user." } := by decide
    rw [hlone, hsplit]
    decide
  rw [collectXattr_user hx, split_eq, carriesNamespace_iff]
  cases hrow : rowOf x with
  | none => simp [hx]
  | some row =>
      obtain ⟨p, index⟩ := row
      obtain ⟨hmem, hpre⟩ := mem_of_rowOf hrow
      have hne : ∀ row ∈ prefixTbl, row.1 ≠ [] := by decide
      have hshort : x.drop p.length ≠ x := by
        intro h
        have hlen := congrArg List.length h
        have hp : 0 < p.length := List.length_pos_iff.mpr (hne _ hmem)
        have hxlen : 0 < x.length := List.length_pos_iff.mpr hx
        rw [List.length_drop] at hlen
        omega
      by_cases hdot : p.getLast? = some 0x2e
      · by_cases hfull : p = x <;> simp [hdot, hfull, hx, hshort]
      · by_cases hfull : p = x <;> simp [hdot, hfull, hx, eq_comm]

/-- A system attribute, listed and taken apart: the rows of the access lists come first. -/
theorem split_system (x : List UInt8) :
    (xattrSplit (collectXattr (ascii "system." ++ x))).attr (collectXattr (ascii "system." ++ x))
        = some { nameIndex := 7, name := x } ↔
      x ≠ [] ∧ ¬ ascii "posix_acl_access" <+: x ∧ ¬ ascii "posix_acl_default" <+: x := by
  have hnone {p : List UInt8} {index : ℕ} (hne : index ≠ 7) (x' : List UInt8) :
      ¬ (if p.getLast? = some 0x2e then if x' = [] then some { nameIndex := 1, name := p }
          else some { nameIndex := index, name := x' }
        else if x' = [] then some { nameIndex := index, name := [] } else none)
        = some ({ nameIndex := 7, name := x } : Attr) := by
    split_ifs <;> simp [hne]
  by_cases haccess : ascii "posix_acl_access" <+: x
  · obtain ⟨x', rfl⟩ := haccess
    have hrow : RowApart 1 (ascii "system.posix_acl_access") := by decide
    have hsplit := @split_other 1 _ x' 2 (by decide) hrow.1
      fun row h => not_prefix_append (hrow.2 row h)
    have hjoin : ascii "system." ++ (ascii "posix_acl_access" ++ x')
        = ascii "system.posix_acl_access" ++ x' := by
      rw [← List.append_assoc]
      congr 1
    rw [hjoin, hsplit]
    exact iff_of_false (hnone (by decide) x') fun h => h.2.1 (List.prefix_append _ _)
  by_cases hdefault : ascii "posix_acl_default" <+: x
  · obtain ⟨x', rfl⟩ := hdefault
    have hrow : RowApart 2 (ascii "system.posix_acl_default") := by decide
    have hsplit := @split_other 2 _ x' 3 (by decide) hrow.1
      fun row h => not_prefix_append (hrow.2 row h)
    have hjoin : ascii "system." ++ (ascii "posix_acl_default" ++ x')
        = ascii "system.posix_acl_default" ++ x' := by
      rw [← List.append_assoc]
      congr 1
    rw [hjoin, hsplit]
    exact iff_of_false (hnone (by decide) x') fun h => h.2.2 (List.prefix_append _ _)
  have hbefore : ∀ row ∈ prefixTbl.take 5, ¬ row.1 <+: ascii "system." ++ x := by
    have hrows : ∀ row ∈ prefixTbl.take 5,
        (¬ row.1 <+: ascii "system." ∧ ¬ ascii "system." <+: row.1) ∨
          row.1 = ascii "system." ++ ascii "posix_acl_access" ∨
          row.1 = ascii "system." ++ ascii "posix_acl_default" := by decide
    intro row hrow
    rcases hrows row hrow with h | h | h
    · exact not_prefix_append h
    · rw [h, List.prefix_append_right_inj]
      exact haccess
    · rw [h, List.prefix_append_right_inj]
      exact hdefault
  rw [@split_other 5 _ _ 7 (by decide) (by decide) hbefore, if_pos (by decide)]
  by_cases hx : x = [] <;> simp [hx, haccess, hdefault]

/-- **When a reported name is the attribute's own**, as the bridge takes it apart. -/
theorem split_reported_iff {a : Attr} (hknown : Known a) {r : List UInt8}
    (hr : reported a = some r) : (xattrSplit r).attr r = some a ↔ OwnName a := by
  obtain ⟨index, x⟩ := a
  obtain ⟨full, hfull, rfl⟩ := Option.map_eq_some_iff.mp hr
  have hfull : full = ext4GetXattrNamePrefix index ++ x := by
    unfold fullName at hfull
    dsimp only at hfull
    split at hfull
    · cases hfull
    · exact (Option.some.inj hfull).symm
  have hindex : index = 1 ∨ index = 2 ∨ index = 3 ∨ index = 4 ∨ index = 6 ∨ index = 7 ∨
      index = 8 := by
    simpa [Known, prefixTbl, EXT4_XATTR_INDEX_USER] using hknown
  have hapart {k : ℕ} {p : List UInt8} (h : RowApart k p) :
      ∀ row ∈ prefixTbl.take k, ¬ row.1 <+: p ++ x := fun row hrow => not_prefix_append (h.2 row hrow)
  subst hfull
  rcases hindex with rfl | rfl | rfl | rfl | rfl | rfl | rfl
  · refine (split_user x).trans ?_
    simp [OwnName]
  · have hrow : RowApart 1 (ascii "system.posix_acl_access") := by decide
    have hsplit := @split_other 1 _ x 2 (by decide) hrow.1 (hapart hrow)
    rw [show ext4GetXattrNamePrefix 2 = ascii "system.posix_acl_access" by decide, hsplit,
      if_neg (by decide)]
    by_cases hx : x = [] <;> simp [OwnName, hx]
  · have hrow : RowApart 2 (ascii "system.posix_acl_default") := by decide
    have hsplit := @split_other 2 _ x 3 (by decide) hrow.1 (hapart hrow)
    rw [show ext4GetXattrNamePrefix 3 = ascii "system.posix_acl_default" by decide, hsplit,
      if_neg (by decide)]
    by_cases hx : x = [] <;> simp [OwnName, hx]
  · have hrow : RowApart 3 (ascii "trusted.") := by decide
    have hsplit := @split_other 3 _ x 4 (by decide) hrow.1 (hapart hrow)
    rw [show ext4GetXattrNamePrefix 4 = ascii "trusted." by decide, hsplit, if_pos (by decide)]
    by_cases hx : x = [] <;> simp [OwnName, hx]
  · have hrow : RowApart 4 (ascii "security.") := by decide
    have hsplit := @split_other 4 _ x 6 (by decide) hrow.1 (hapart hrow)
    rw [show ext4GetXattrNamePrefix 6 = ascii "security." by decide, hsplit, if_pos (by decide)]
    by_cases hx : x = [] <;> simp [OwnName, hx]
  · rw [show ext4GetXattrNamePrefix 7 = ascii "system." by decide, split_system]
    simp [OwnName]
  · have hrichacl : ext4GetXattrNamePrefix 8 ++ x = ascii "system." ++ (ascii "richacl" ++ x) := by
      rw [← List.append_assoc]
      congr 1
    have hnot : ∀ p ∈ [ascii "posix_acl_access", ascii "posix_acl_default"],
        ¬ p <+: ascii "richacl" ∧ ¬ ascii "richacl" <+: p := by decide
    have hne : ascii "richacl" ++ x ≠ [] := by
      intro h
      exact absurd (List.append_eq_nil_iff.mp h).1 (by decide)
    have hseven := (split_system (ascii "richacl" ++ x)).mpr
      ⟨hne, not_prefix_append (hnot _ (by simp)), not_prefix_append (hnot _ (by simp))⟩
    rw [hrichacl, hseven]
    simp [OwnName]

theorem cString_eq_self {bytes : List UInt8} (h : (0 : UInt8) ∉ bytes) : cString bytes = bytes := by
  rw [cString, List.takeWhile_eq_self_iff]
  intro c hc
  have hne : c ≠ 0 := by
    rintro rfl
    exact h hc
  simpa using hne

theorem zero_notMem_cString (bytes : List UInt8) : (0 : UInt8) ∉ cString bytes := by
  intro h
  have hne := List.mem_takeWhile_imp h
  simp at hne

theorem mem_of_attr {s : Split} {full : List UInt8} {a : Attr} (h : s.attr full = some a) {c : UInt8}
    (hc : c ∈ a.name) : c ∈ full := by
  unfold Split.attr at h
  cases hsub : s.sub with
  | none =>
      rw [hsub] at h
      dsimp only at h
      split at h
      · cases h
        cases hc
      · cases h
  | some off =>
      rw [hsub] at h
      cases h
      exact List.mem_of_mem_drop (List.mem_of_mem_take hc)

/-- The bytes of a reported name are those of the attribute's, and of a prefix. -/
theorem zero_notMem_reported {a : Attr} {r : List UInt8} (hr : reported a = some r)
    (hzero : (0 : UInt8) ∉ a.name) : (0 : UInt8) ∉ r := by
  have hpre : (0 : UInt8) ∉ ext4GetXattrNamePrefix a.nameIndex := by
    have hrows : ∀ row ∈ prefixTbl, (0 : UInt8) ∉ row.1 := by decide
    unfold ext4GetXattrNamePrefix
    cases hrow : prefixTbl.find? (·.2 = a.nameIndex) with
    | none => simp
    | some row => exact hrows row (List.mem_of_find?_eq_some hrow)
  obtain ⟨full, hfull, rfl⟩ := Option.map_eq_some_iff.mp hr
  unfold fullName at hfull
  dsimp only at hfull
  split at hfull
  · cases hfull
  cases hfull
  have hboth : (0 : UInt8) ∉ ext4GetXattrNamePrefix a.nameIndex ++ a.name := by
    simp [hpre, hzero]
  unfold collectXattr
  dsimp only
  split
  · exact fun h => hboth (List.mem_of_mem_drop h)
  · exact hboth

/-- **When a reported name designates its attribute**: if it is text and a C string, and reads as
    the name of that attribute only. -/
theorem designated_reported_iff (isText : List UInt8 → Bool) {a : Attr} (hknown : Known a)
    {r : List UInt8} (hr : reported a = some r) :
    designated isText r = some a ↔ isText r = true ∧ (0 : UInt8) ∉ a.name ∧ OwnName a := by
  unfold designated
  cases htext : isText r with
  | false => simp
  | true =>
      simp only [if_true, true_and]
      constructor
      · intro h
        have hzero : (0 : UInt8) ∉ a.name := fun hmem =>
          zero_notMem_cString r (mem_of_attr h hmem)
        rw [cString_eq_self (zero_notMem_reported hr hzero)] at h
        exact ⟨hzero, (split_reported_iff hknown hr).mp h⟩
      · rintro ⟨hzero, hown⟩
        rw [cString_eq_self (zero_notMem_reported hr hzero)]
        exact (split_reported_iff hknown hr).mpr hown

/-! ## The claim -/

/-- Attribute names round-trip between the disk and macOS. -/
structure NamesRoundTrip (isText : List UInt8 → Bool) : Prop where
  designates : ∀ a, Known a → ∀ r, reported a = some r → designated isText r = some a
  distinct : ∀ a b, Known a → Known b → ∀ r, reported a = some r → reported b = some r → a = b
  splits : ∀ full, (∀ off, (xattrSplit full).sub = some off →
      off + (xattrSplit full).len ≤ full.length) ∧
    ∃ a, (xattrSplit full).attr full = some a ∧
      ext4GetXattrNamePrefix a.nameIndex ++ a.name = full

/-- The user attribute `security.selinux` and the security attribute `selinux` are reported alike,
    and the name is that of the latter; `com.apple.FinderInfo` gets the user namespace in front. -/
theorem namesRoundTrip_selinux :
    reported { nameIndex := 1, name := ascii "security.selinux" }
        = reported { nameIndex := 6, name := ascii "selinux" } ∧
      designated (fun _ => true) (ascii "security.selinux")
        = some { nameIndex := 6, name := ascii "selinux" } ∧
      (xattrSplit (ascii "com.apple.FinderInfo")).attr (ascii "com.apple.FinderInfo")
        = some { nameIndex := 1, name := ascii "com.apple.FinderInfo" } ∧
      ¬ NamesRoundTrip fun _ => true := by
  refine ⟨by decide, by decide, by decide, fun h => ?_⟩
  have hsame := h.designates { nameIndex := 1, name := ascii "security.selinux" } (by decide)
    (ascii "security.selinux") (by decide)
  exact absurd hsame (by decide)

theorem OwnName.known {a : Attr} (h : OwnName a) : Known a := by
  rcases h with ⟨h, -⟩ | ⟨h | h, -⟩ | ⟨h | h, -⟩ | ⟨h, -⟩ <;>
    simp [Known, prefixTbl, EXT4_XATTR_INDEX_USER, h]

/-- **Attribute names round-trip.** In the listing of every inode, the name of an attribute that
    reads as its own, and is text, designates that attribute and no other one like it; and every
    name but those that go on behind the name of an access list splits back. -/
theorem ownNames_roundTrip (isText : List UInt8 → Bool) :
    (∀ (attrs : List Attr), ∀ a ∈ attrs, OwnName a → (0 : UInt8) ∉ a.name →
      ∀ r, reported a = some r → isText r = true →
        r ∈ xattrs attrs ∧ designated isText r = some a ∧
          ∀ b ∈ attrs, OwnName b → reported b = some r → b = a) ∧
    ∀ full, (∀ p ∈ aclNames, p <+: full → p = full) → SplitsBack full := by
  refine ⟨fun attrs a ha hown hzero r hr htext => ⟨?_, ?_, fun b _ hb hrb => ?_⟩,
    fun full => splitsBack⟩
  · exact List.mem_filterMap.mpr ⟨a, ha, hr⟩
  · exact (designated_reported_iff isText hown.known hr).mpr ⟨htext, hzero, hown⟩
  · have hsplit := (split_reported_iff hown.known hr).mpr hown
    rw [(split_reported_iff hb.known hrb).mpr hb, Option.some.injEq] at hsplit
    exact hsplit

/-- An inode with a quarantine mark, a label and an access list. -/
theorem ownNames_roundTrip_three :
    designated (fun _ => true) (ascii "com.apple.quarantine")
        = some { nameIndex := 1, name := ascii "com.apple.quarantine" } ∧
      SplitsBack (ascii "user.colour") :=
  ⟨((ownNames_roundTrip fun _ => true).1
      [{ nameIndex := 1, name := ascii "com.apple.quarantine" },
        { nameIndex := 6, name := ascii "selinux" }, { nameIndex := 2, name := [] }]
      { nameIndex := 1, name := ascii "com.apple.quarantine" } (by decide) (by decide) (by decide)
      _ (by decide) rfl).2.1,
    (ownNames_roundTrip fun _ => true).2 _ (by decide)⟩

end Ext4b
