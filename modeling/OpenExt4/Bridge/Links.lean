import Mathlib.Algebra.BigOperators.Group.Finset.Piecewise
import OpenExt4.Bridge.Edits

set_option autoImplicit false

/-! # Link counts

What the link counts of a consistent volume say (`Links`), and when a new name, a name taken away
and a moved entry keep that true. -/

namespace Ext4b

open Finset

variable {v v' : Volume}

/-! ## True link counts -/

/-- How many entries of the volume other than `.` and `..` name inode `i`. -/
def names (v : Volume) (i : ℕ) : ℕ := ∑ d ∈ range (v.inodesCount + 1), namesIn v d i

/-- How many subdirectories `d` has. -/
def subdirs (v : Volume) (d : ℕ) : ℕ :=
  (v.inodes d).entries.countP fun e => (v.inodes e.inode).type == .dir

/-- The count of a directory with `s` subdirectories: its name, its `.` and their `..`, or the 1 of
    an indexed directory that had too many. -/
def DirCount (v : Volume) (d : Inode) (s : ℕ) : Prop :=
  d.linksCnt = 2 + s ∨ d.linksCnt = 1 ∧ isDx v d = true

/-- The link counts are true and fit their 16 bits. -/
structure Links (v : Volume) : Prop where
  file : ∀ i, (v.inodes i).inUse = true → (v.inodes i).type ≠ .dir →
    (v.inodes i).linksCnt = names v i ∧ (v.inodes i).index = false
  dir : ∀ d, LiveDir v d → DirCount v (v.inodes d) (subdirs v d)
  width : ∀ i, (v.inodes i).inUse = true → (v.inodes i).linksCnt < 2 ^ 16

/-! ## One count -/

theorem linksCountInc_lt (v : Volume) (d : Inode) : (linksCountInc v d).linksCnt < 2 ^ 16 := by
  have hmod : (d.linksCnt + 1) % 2 ^ 16 < 2 ^ 16 := Nat.mod_lt _ (by decide)
  unfold linksCountInc
  dsimp only
  split
  · decide
  · exact hmod

/-- Another link of an inode without index is counted, short of the end of the 16 bits. -/
theorem linksCountInc_file {d : Inode} (hindex : d.index = false) (hlt : d.linksCnt + 1 < 2 ^ 16) :
    (linksCountInc v d).linksCnt = d.linksCnt + 1 := by
  have hdx : isDx v d = false := by
    rw [isDx, hindex, Bool.and_false]
  unfold linksCountInc
  dsimp only
  rw [hdx, if_neg fun hn => Bool.false_ne_true hn.1, Nat.mod_eq_of_lt hlt]

theorem linksCountDec_file {d : Inode} (hfile : d.type ≠ .dir) :
    (linksCountDec d).linksCnt = d.linksCnt - 1 := if_pos hfile

/-- Another subdirectory is counted, or the count stands at 1. -/
theorem DirCount.inc {d : Inode} {s : ℕ} (h : DirCount v d s) (hlt : d.linksCnt + 1 < 2 ^ 16) :
    DirCount v (linksCountInc v d) (s + 1) := by
  unfold DirCount linksCountInc
  dsimp only
  rw [Nat.mod_eq_of_lt hlt]
  rcases h with hcount | ⟨hone, hdx⟩
  · split
    · next hmax => exact .inr ⟨rfl, hmax.1⟩
    · left
      omega
  · rw [if_pos ⟨hdx, by omega, .inr (by omega)⟩]
    exact .inr ⟨rfl, hdx⟩

theorem DirCount.dec {d : Inode} {s : ℕ} (hdir : d.type = .dir) (h : DirCount v d (s + 1)) :
    DirCount v (linksCountDec d) s := by
  unfold DirCount linksCountDec
  dsimp only
  rw [if_neg (not_not.mpr hdir)]
  rcases h with hcount | ⟨hone, hdx⟩
  · rw [if_pos (by omega)]
    left
    omega
  · rw [if_neg (by omega)]
    exact .inr ⟨hone, hdx⟩

/-- The count of an indexed directory that had too many stands at 1, whatever is added. -/
theorem DirCount.inc_of_one {d : Inode} {s s' : ℕ} (h : DirCount v d s) (hone : d.linksCnt = 1) :
    DirCount v (linksCountInc v d) s' := by
  rcases h with hcount | ⟨-, hdx⟩
  · omega
  · have htwo : (d.linksCnt + 1) % 2 ^ 16 = 2 := by
      rw [hone]
      rfl
    unfold DirCount linksCountInc
    dsimp only
    rw [htwo, if_pos ⟨hdx, by decide, .inr rfl⟩]
    exact .inr ⟨rfl, hdx⟩

theorem DirCount.countLink_inc (isDir : Bool) {d : Inode} {s : ℕ} (h : DirCount v d s)
    (hlt : isDir = true → d.linksCnt + 1 < 2 ^ 16) :
    DirCount v (countLink isDir (linksCountInc v) d) (s + if isDir = true then 1 else 0) := by
  cases isDir with
  | true => exact h.inc (hlt rfl)
  | false => exact h

theorem DirCount.countLink_dec {d : Inode} {s : ℕ} {isDir : Bool} (hdir : d.type = .dir)
    (h : DirCount v d (s + if isDir = true then 1 else 0)) :
    DirCount v (countLink isDir linksCountDec d) s := by
  cases isDir with
  | true => exact h.dec hdir
  | false => exact h

theorem DirCount.congr {d : Inode} {s : ℕ} (hindex : v'.dirIndex = v.dirIndex)
    (h : DirCount v d s) : DirCount v' d s := by
  unfold DirCount isDx at h ⊢
  rwa [hindex]

theorem countLink_inc_lt {isDir : Bool} {d : Inode} (h : d.linksCnt < 2 ^ 16) :
    (countLink isDir (linksCountInc v) d).linksCnt < 2 ^ 16 := by
  cases isDir with
  | true => exact linksCountInc_lt v d
  | false => exact h

theorem countLink_dec_lt {isDir : Bool} {d : Inode} (h : d.linksCnt < 2 ^ 16) :
    (countLink isDir linksCountDec d).linksCnt < 2 ^ 16 := by
  cases isDir with
  | true => exact lt_of_le_of_lt (linksCountDec_le d) h
  | false => exact h

/-! ## Sums -/

theorem sum_single {n p : ℕ} (hp : p ≤ n) (i c : ℕ) :
    (∑ d ∈ range (n + 1), if d = p ∧ i = c then 1 else 0) = if i = c then 1 else 0 := by
  by_cases hc : i = c
  · simp only [hc, and_true]
    rw [sum_ite_eq' (range (n + 1)) p fun _ => 1,
      if_pos (mem_range.mpr (Nat.lt_succ_of_le hp))]
    rfl
  · simp only [hc, and_false, if_false, sum_const_zero]

theorem Linked.names_eq {p c : ℕ} {name : Name} (h : Linked v v' p name c) (hv : Tree v) (i : ℕ) :
    names v' i = names v i + if i = c then 1 else 0 := by
  rw [names, names, h.inodesCount, sum_congr rfl fun d _ => h.namesIn_eq d i, sum_add_distrib,
    sum_single (hv.bounded p h.live.1).2]

theorem Unlinked.names_eq {p c : ℕ} {name : Name} (h : Unlinked v v' p name c) (hv : Tree v)
    (i : ℕ) : names v i = names v' i + if i = c then 1 else 0 := by
  rw [names, names, h.inodesCount, sum_congr rfl fun d _ => h.namesIn_eq d i, sum_add_distrib,
    sum_single (hv.bounded p h.live.1).2]

theorem Moved.names_eq {sp dp c : ℕ} {sn dn : Name} (h : Moved v v' sp sn dp dn c) (hv : Tree v)
    (i : ℕ) : names v' i = names v i := by
  have hsum := sum_congr (rfl : range (v.inodesCount + 1) = _) fun d _ =>
    h.namesIn_eq (hv.names sp h.liveSrc) d i
  rw [sum_add_distrib, sum_add_distrib, sum_single (hv.bounded sp h.liveSrc.1).2,
    sum_single (hv.bounded dp h.liveDst.1).2] at hsum
  rw [names, names, h.inodesCount]
  exact Nat.add_right_cancel hsum

/-! ## Subdirectories -/

/-- The subdirectories among a list of entries, where the types have not changed. -/
theorem countP_type_congr {es : List Dirent}
    (h : ∀ e ∈ es, (v'.inodes e.inode).type = (v.inodes e.inode).type) :
    (es.countP fun e => (v'.inodes e.inode).type == .dir) =
      es.countP fun e => (v.inodes e.inode).type == .dir := by
  refine List.countP_congr fun e he => ?_
  rw [h e he]

/-- One more entry. -/
theorem subdirs_of_cons {d c : ℕ} {name : Name}
    (htype : ∀ e ∈ (v.inodes d).entries, (v'.inodes e.inode).type = (v.inodes e.inode).type)
    (hperm : (v'.inodes d).entries.Perm (⟨name, c⟩ :: (v.inodes d).entries)) :
    subdirs v' d = subdirs v d + if (v'.inodes c).type = .dir then 1 else 0 := by
  rw [subdirs, subdirs, hperm.countP_eq, List.countP_cons, countP_type_congr htype]
  simp only [beq_iff_eq]

theorem subdirs_congr {d : ℕ}
    (htype : ∀ e ∈ (v.inodes d).entries, (v'.inodes e.inode).type = (v.inodes e.inode).type)
    (hentries : (v'.inodes d).entries = (v.inodes d).entries) : subdirs v' d = subdirs v d := by
  rw [subdirs, subdirs, hentries, countP_type_congr htype]

theorem Tree.inUse_of_mem (hv : Tree v) {d : ℕ} (hd : LiveDir v d) {e : Dirent}
    (he : e ∈ (v.inodes d).entries) : (v.inodes e.inode).inUse = true :=
  hv.named d e.inode (namesIn_pos hd he).ne'

/-! ## A new name -/

section Linked

variable {p c : ℕ} {name : Name}

theorem Linked.type_eq (h : Linked v v' p name c) {j : ℕ} (hj : (v.inodes j).inUse = true) :
    (v'.inodes j).type = (v.inodes j).type := by
  by_cases hc : j = c
  · subst hc
    have hchild := h.child
    generalize v'.inodes j = d at hchild
    cases hchild with
    | dir hfree => rw [hfree] at hj; cases hj
    | other _ hfree => rw [hfree] at hj; cases hj
    | link => rfl
  · by_cases hp : j = p
    · obtain ⟨pos, links, heq⟩ := h.parent_eq
      rw [hp, heq]
      rfl
    · rw [h.frame j hp hc]

/-- **A new name keeps the counts true**, if the counts that grow have room. -/
theorem Links.linked (hl : Links v) (hv : Tree v) (h : Linked v v' p name c)
    (hparent : (v'.inodes c).type = .dir → (v.inodes p).linksCnt + 1 < 2 ^ 16)
    (hchild : (v.inodes c).inUse = true → (v.inodes c).linksCnt + 1 < 2 ^ 16) : Links v' where
  file i hi hfile := by
    by_cases hc : i = c
    · subst hc
      have hnames := h.names_eq hv i
      rw [if_pos rfl] at hnames
      rw [hnames]
      have hnew := h.child
      generalize v'.inodes i = d at hnew hfile
      cases hnew with
      | dir => exact absurd rfl hfile
      | other _ hfree =>
          have hzero : names v i = 0 := sum_eq_zero fun d _ => by
            by_contra hname
            rw [hv.named d i hname] at hfree
            cases hfree
          rw [hzero]
          exact ⟨linksCountInc_file rfl (show 0 + 1 < 2 ^ 16 by decide), rfl⟩
      | link hused htype =>
          obtain ⟨hcount, hindex⟩ := hl.file i hused htype
          rw [linksCountInc_file hindex (hchild hused), hcount]
          exact ⟨rfl, hindex⟩
    · have hp : i ≠ p := by
        intro heq
        refine hfile ?_
        rw [heq]
        exact h.live_parent.2
      rw [h.frame i hp hc] at hi hfile ⊢
      rw [h.names_eq hv, if_neg hc]
      exact hl.file i hi hfile
  dir d hd := by
    refine DirCount.congr h.dirIndex ?_
    rcases (h.live_iff d).mp hd with hlive | ⟨rfl, hdir⟩
    · have hne : d ≠ c := fun heq => h.child.not_live (heq ▸ hlive)
      have htype : ∀ e ∈ (v.inodes d).entries,
          (v'.inodes e.inode).type = (v.inodes e.inode).type := fun e he =>
        h.type_eq (hv.inUse_of_mem hlive he)
      by_cases hp : d = p
      · subst hp
        obtain ⟨pos, heq⟩ := h.parent
        have hcount := DirCount.countLink_inc ((v'.inodes c).type == .dir)
          (d := addEntry pos name c (v.inodes d)) (hl.dir d hlive)
          fun hdir => hparent (beq_iff_eq.mp hdir)
        rw [subdirs_of_cons htype h.perm, heq]
        simp only [beq_iff_eq] at hcount
        exact hcount
      · have hsame := h.frame d hp hne
        rw [subdirs_congr htype (congrArg Inode.entries hsame), hsame]
        exact hl.dir d hlive
    · have hempty := (h.child.of_dir hdir).2.2.2
      rw [subdirs, hempty]
      have hnew := h.child
      generalize v'.inodes d = x at hnew hdir
      cases hnew with
      | dir => exact .inl rfl
      | other hfile => exact absurd hdir hfile
      | link _ hfile => exact absurd hdir hfile
  width i hi := by
    by_cases hc : i = c
    · subst hc
      have hnew := h.child
      generalize v'.inodes i = x at hnew
      cases hnew with
      | dir => exact (by decide : 2 < 2 ^ 16)
      | other => exact linksCountInc_lt ..
      | link => exact linksCountInc_lt ..
    · by_cases hp : i = p
      · subst hp
        obtain ⟨pos, heq⟩ := h.parent
        rw [heq]
        exact countLink_inc_lt (hl.width i h.live.1)
      · rw [h.frame i hp hc] at hi ⊢
        exact hl.width i hi

end Linked

/-! ## A name taken away -/

section Unlinked

variable {p c : ℕ} {name : Name}

theorem Unlinked.type_eq (h : Unlinked v v' p name c) (j : ℕ) :
    (v'.inodes j).type = (v.inodes j).type := by
  by_cases hc : j = c
  · rw [hc]
    exact h.child.type_eq
  · by_cases hp : j = p
    · obtain ⟨links, heq⟩ := h.parent_eq
      rw [hp, heq]
      rfl
    · rw [h.frame j hp hc]

/-- An inode that is freed had one name only. -/
theorem Links.unnamed_of_last (hl : Links v) (hv : Tree v) (h : Unlinked v v' p name c)
    (hfile : (v.inodes c).type ≠ .dir) (hfree : (v'.inodes c).inUse = false) : names v' c = 0 := by
  have hused := hv.named p c h.named_child
  have hcount := (hl.file c hused hfile).1
  rw [h.names_eq hv, if_pos rfl] at hcount
  have hchild := h.child
  generalize v'.inodes c = d at hchild hfree
  cases hchild with
  | dir _ hdir => exact absurd hdir hfile
  | last _ _ hzero =>
      rw [linksCountDec_file hfile] at hzero
      omega
  | more =>
      rw [show (linksCountDec (v.inodes c)).inUse = (v.inodes c).inUse from rfl, hused] at hfree
      cases hfree

/-- Taking a name away from a volume with true counts keeps the tree. -/
theorem Tree.unlinked_of_links (hv : Tree v) (hl : Links v) (h : Unlinked v v' p name c) :
    Tree v' := by
  refine hv.unlinked h fun hfile hfree d => ?_
  have hzero := hl.unnamed_of_last hv h hfile hfree
  by_cases hd : LiveDir v' d
  · have hle := (hv.bounded d ((h.live_iff d).mp hd).1.1).2
    rw [← h.inodesCount] at hle
    exact sum_eq_zero_iff.mp hzero d (mem_range.mpr (Nat.lt_succ_of_le hle))
  · exact namesIn_of_not_live hd c

/-- **Taking a name away keeps the counts true.** -/
theorem Links.unlinked (hl : Links v) (hv : Tree v) (h : Unlinked v v' p name c) : Links v' where
  file i hi hfile := by
    rw [h.type_eq] at hfile
    by_cases hc : i = c
    · subst hc
      have hnames := h.names_eq hv i
      rw [if_pos rfl] at hnames
      obtain ⟨hcount, hindex⟩ := hl.file i (hv.named p i h.named_child) hfile
      have hchild := h.child
      generalize v'.inodes i = d at hchild hi
      cases hchild with
      | dir => cases hi
      | last => cases hi
      | more =>
          rw [linksCountDec_file hfile, hcount, hnames]
          exact ⟨rfl, hindex⟩
    · have hp : i ≠ p := fun heq => hfile (heq ▸ h.live.2)
      have hnames := h.names_eq hv i
      rw [if_neg hc, Nat.add_zero] at hnames
      rw [h.frame i hp hc] at hi ⊢
      rw [← hnames]
      exact hl.file i hi hfile
  dir d hd := by
    refine DirCount.congr h.dirIndex ?_
    obtain ⟨hlive, hne⟩ := (h.live_iff d).mp hd
    by_cases hp : d = p
    · subst hp
      have hsub := @subdirs_of_cons v' v _ _ _ (fun e _ => (h.type_eq e.inode).symm) h.perm
      have hcount := hl.dir d hlive
      rw [hsub] at hcount
      rw [h.parent]
      refine DirCount.countLink_dec hlive.2 ?_
      simp only [beq_iff_eq]
      exact hcount
    · have hsame := h.frame d hp hne
      rw [subdirs_congr (fun e _ => h.type_eq e.inode) (congrArg Inode.entries hsame), hsame]
      exact hl.dir d hlive
  width i hi := by
    by_cases hc : i = c
    · subst hc
      have hlt := hl.width i (hv.named p i h.named_child)
      have hchild := h.child
      generalize v'.inodes i = d at hchild hi
      cases hchild with
      | dir => cases hi
      | last => cases hi
      | more => exact lt_of_le_of_lt (linksCountDec_le _) hlt
    · by_cases hp : i = p
      · subst hp
        rw [h.parent]
        exact countLink_dec_lt (hl.width i h.live.1)
      · rw [h.frame i hp hc] at hi ⊢
        exact hl.width i hi

end Unlinked

/-! ## An entry moved -/

section Moved

variable {sp dp c : ℕ} {sn dn : Name}

/-- **Moving an entry keeps the counts true**, if a directory that moves within its parent finds the
    count of the parent at 1, and the count of a new parent has room. -/
theorem Links.moved (hl : Links v) (hv : Tree v) (h : Moved v v' sp sn dp dn c)
    (hsame : (v.inodes c).type = .dir → sp = dp → (v.inodes sp).linksCnt = 1)
    (hroom : (v.inodes c).type = .dir → sp ≠ dp → (v.inodes dp).linksCnt + 1 < 2 ^ 16) :
    Links v' where
  file i hi hfile := by
    obtain ⟨hused, htype, -, -⟩ := h.kept i
    rw [hused] at hi
    rw [htype] at hfile
    rw [h.names_eq hv]
    have hinode : v'.inodes i = v.inodes i := by
      by_cases hc : i = c
      · subst hc
        rcases h.child_eq with ⟨hdir, -⟩ | ⟨-, heq⟩
        · exact absurd hdir hfile
        · exact heq
      · exact h.frame i (fun heq => hfile (heq ▸ h.liveSrc.2))
          (fun heq => hfile (heq ▸ h.liveDst.2)) hc
    rw [hinode]
    exact hl.file i hi hfile
  dir d hd := by
    refine DirCount.congr h.dirIndex ?_
    have hlive := (h.live_iff d).mp hd
    have htype : ∀ j, (v'.inodes j).type = (v.inodes j).type := fun j => (h.kept j).2.1
    by_cases hs : d = sp
    · subst hs
      by_cases heq : d = dp
      · obtain ⟨pos, hd'⟩ := h.same heq
        rw [hd']
        by_cases hdir : (v.inodes c).type = .dir
        · rw [hdir]
          exact DirCount.inc_of_one (d := addEntry pos dn c (v.inodes d)) (hl.dir d hlive)
            (hsame hdir heq)
        · have hperm := h.perm_same (hv.names d hlive) heq
          have hsub : subdirs v' d = subdirs v d := by
            have hcount := hperm.countP_eq fun e => (v.inodes e.inode).type == .dir
            rw [List.countP_cons, List.countP_cons] at hcount
            rw [subdirs, subdirs, countP_type_congr fun e _ => htype e.inode]
            exact Nat.add_right_cancel hcount
          rw [hsub, beq_eq_false_iff_ne.mpr hdir]
          exact hl.dir d hlive
      · have hsub := @subdirs_of_cons v' v _ _ _ (fun e _ => (htype e.inode).symm)
          (h.perm_src heq)
        have hcount := hl.dir d hlive
        rw [hsub] at hcount
        rw [h.src heq]
        refine DirCount.countLink_dec hlive.2 ?_
        simp only [beq_iff_eq]
        exact hcount
    · by_cases hdst : d = dp
      · subst hdst
        have hne : sp ≠ d := fun heq => hs heq.symm
        obtain ⟨pos, heq⟩ := h.dst hne
        have hcount := DirCount.countLink_inc ((v.inodes c).type == .dir)
          (d := addEntry pos dn c (v.inodes d)) (hl.dir d hlive)
          fun hdir => hroom (beq_iff_eq.mp hdir) hne
        rw [subdirs_of_cons (fun e _ => htype e.inode) (h.perm_dst hne), heq, htype]
        simp only [beq_iff_eq] at hcount
        exact hcount
      · have hentries := h.entries_eq hs hdst
        rw [subdirs_congr (fun e _ => htype e.inode) hentries]
        by_cases hc : d = c
        · subst hc
          rcases h.child_eq with ⟨-, heq⟩ | ⟨-, heq⟩ <;> rw [heq] <;> exact hl.dir d hlive
        · rw [h.frame d hs hdst hc]
          exact hl.dir d hlive
  width i hi := by
    rw [(h.kept i).1] at hi
    have hlt := hl.width i hi
    by_cases hc : i = c
    · subst hc
      rcases h.child_eq with ⟨-, heq⟩ | ⟨-, heq⟩ <;> rw [heq] <;> exact hlt
    · by_cases hs : i = sp
      · subst hs
        by_cases heq : i = dp
        · obtain ⟨pos, hi'⟩ := h.same heq
          rw [hi']
          exact countLink_inc_lt (d := addEntry pos dn c (v.inodes i)) hlt
        · rw [h.src heq]
          exact countLink_dec_lt (d := eraseName sn (v.inodes i)) hlt
      · by_cases hd : i = dp
        · subst hd
          obtain ⟨pos, heq⟩ := h.dst (Ne.symm hs)
          rw [heq]
          exact countLink_inc_lt (d := addEntry pos dn c (v.inodes i)) hlt
        · rw [h.frame i hs hd hc]
          exact hlt

end Moved

end Ext4b
