import OpenExt4.Bridge.TreeProofs

set_option autoImplicit false

/-! # What the calls do

Each call that returns success, made on allocated directories and with names other than `.` and
`..`, is one of the changes of names the tree is known to survive, or two of them. -/

namespace Ext4b

open Ancestry

variable {v v' : Volume}

theorem bind_ok {α β : Type} {x : Result α} {f : α → Result β} {b : β}
    (h : (x >>= f) = .ok b) : ∃ a, x = .ok a ∧ f a = .ok b := by
  cases x with
  | error e => cases h
  | ok a => exact ⟨a, rfl, h⟩

theorem map_snd_ok {α β : Type} {x : Result (α × β)} {b : β}
    (h : x.map Prod.snd = .ok b) : ∃ a, x = .ok (a, b) := by
  cases x with
  | error e => cases h
  | ok r =>
      cases h
      exact ⟨r.1, rfl⟩

/-! ## Linking -/

theorem linkChild_new {pos p c : ℕ} {name : Name} (h : linkChild v pos p c name false = .ok v')
    (hne : c ≠ p) :
    v'.inodesCount = v.inodesCount ∧ v'.dirIndex = v.dirIndex ∧
      (∀ j, j ≠ p → j ≠ c → v'.inodes j = v.inodes j) ∧
      v'.inodes p = countLink ((v.inodes c).type == .dir) (linksCountInc v)
        (addEntry pos name c (v.inodes p)) ∧
      v'.inodes c = if (v.inodes c).type = .dir then initDir v p c (v.inodes c)
        else linksCountInc v (v.inodes c) := by
  unfold linkChild at h
  split at h
  · cases h
  · dsimp only at h
    rw [Volume.modify_of_ne _ _ _ hne] at h
    by_cases hdir : (v.inodes c).type = .dir
    · rw [if_pos hdir, if_pos Bool.not_false] at h
      cases h
      refine ⟨rfl, rfl, fun j hp hc => ?_, ?_, ?_⟩
      · rw [Volume.modify_of_ne _ _ _ hp, Volume.modify_of_ne _ _ _ hc,
          Volume.modify_of_ne _ _ _ hp]
      · rw [Volume.modify_self, Volume.modify_of_ne _ _ _ hne.symm, Volume.modify_self, hdir]
        rfl
      · rw [Volume.modify_of_ne _ _ _ hne, Volume.modify_self, Volume.modify_of_ne _ _ _ hne,
          if_pos hdir]
        rfl
    · rw [if_neg hdir, if_pos Bool.not_false] at h
      cases h
      refine ⟨rfl, rfl, fun j hp hc => ?_, ?_, ?_⟩
      · rw [Volume.modify_of_ne _ _ _ hc, Volume.modify_of_ne _ _ _ hp]
      · rw [Volume.modify_of_ne _ _ _ hne.symm, Volume.modify_self,
          beq_eq_false_iff_ne.mpr hdir]
        rfl
      · rw [Volume.modify_self, Volume.modify_of_ne _ _ _ hne, if_neg hdir]
        rfl

theorem absent_of_findEntry {d : Inode} {name : Name} (hplain : Plain name)
    (h : ¬ findEntry v d name ≠ none) : name ∉ d.entries.map Dirent.name := by
  rw [not_not, findEntry_of_plain hplain] at h
  exact findName_eq_none.mp h

/-- **A create makes a new name for a fresh inode.** -/
theorem createCommon_linked {env : Env} {p c : ℕ} {name : Name} {type : ItemType}
    (h : createCommon v env p name type = .ok (c, v')) (hp : LiveDir v p) (hplain : Plain name) :
    Linked v v' p name c ∧ (v.inodes c).inUse = false ∧ (v'.inodes c).type = type := by
  unfold createCommon at h
  split at h
  · cases h
  split at h
  · cases h
  split at h
  · cases h
  split at h
  · cases h
  · next hfind =>
    obtain ⟨v₁, halloc, h⟩ := bind_ok h
    obtain ⟨v₂, hlink, h⟩ := bind_ok h
    cases h
    unfold allocInode at halloc
    split at halloc
    · cases halloc
    · next hfree =>
      cases halloc
      push Not at hfree
      obtain ⟨hused, hpos, hle⟩ := hfree
      replace hused := Bool.eq_false_of_not_eq_true hused
      have hne : env.ialloc ≠ p := by
        intro heq
        have hlive := hp.1
        rw [← heq, hused] at hlive
        cases hlive
      obtain ⟨hcount, hindex, hframe, hparent, hchild⟩ := linkChild_new hlink hne
      rw [Volume.modify_self] at hparent hchild
      rw [Volume.modify_of_ne _ _ _ hne.symm] at hparent
      have htype : (v'.inodes env.ialloc).type = type := by
        rw [hchild]
        split <;> rfl
      refine ⟨⟨hcount, hindex, fun j hjp hjc => ?_, hp, hne, hplain,
        absent_of_findEntry hplain hfind, ⟨env.pos, hparent.trans ?_⟩, ?_⟩, hused, htype⟩
      · rw [hframe j hjp hjc, Volume.modify_of_ne _ _ _ hjc]
      · rw [htype]
        rfl
      · rw [hchild]
        by_cases hdir : type = .dir
        · subst hdir
          exact .dir hused (Nat.pos_of_ne_zero hpos) hle
        · rw [if_neg (show ¬ (freshInode type).type = .dir from hdir)]
          exact .other hdir hused (Nat.pos_of_ne_zero hpos) hle

/-- **A hard link makes a new name for an inode that is there.** -/
theorem hardlink_linked {env : Env} {p c : ℕ} {name : Name}
    (h : hardlink v env p name c = .ok v') (hp : LiveDir v p) (hplain : Plain name)
    (hc : (v.inodes c).inUse = true) : Linked v v' p name c ∧ (v.inodes c).type ≠ .dir := by
  unfold hardlink at h
  split at h
  · cases h
  split at h
  · cases h
  split at h
  · cases h
  · next hfile =>
    split at h
    · cases h
    · next hfind =>
      have hne : c ≠ p := fun heq => hfile (heq ▸ hp.2)
      obtain ⟨hcount, hindex, hframe, hparent, hchild⟩ := linkChild_new h hne
      rw [if_neg hfile] at hchild
      refine ⟨⟨hcount, hindex, hframe, hp, hne, hplain, absent_of_findEntry hplain hfind,
        ⟨env.pos, ?_⟩, ?_⟩, hfile⟩
      · rw [hparent, hchild]
        rfl
      · rw [hchild]
        exact .link hc hfile

/-! ## Unlinking -/

/-- A directory that holds nothing but `.` and `..` has no entries. -/
theorem entries_of_no_children {d : Inode} (hgood : GoodNames d.entries)
    (h : ¬ dirHasChildren d = true) : d.entries = [] := by
  unfold dirHasChildren at h
  rw [List.any_eq_true] at h
  refine List.eq_nil_iff_forall_not_mem.mpr fun e he => h ⟨e, he, ?_⟩
  obtain ⟨hdot, hdotdot⟩ := hgood.2 e he
  rw [Bool.and_eq_true, bne_iff_ne, bne_iff_ne]
  exact ⟨hdot, hdotdot⟩

theorem removeEntry_ok {p : ℕ} {name : Name} (h : removeEntry v p name = .ok v')
    (hplain : Plain name) : v' = v.modify p (eraseName name) := by
  unfold removeEntry at h
  split at h
  · cases h
  · split at h
    · cases h
    · rw [← Except.ok.inj h, Volume.modify, Volume.modify, eraseEntry_of_plain hplain]

/-- The part that `ext4b_unlink_ex` and `ext4b_rename` share. -/
def unlinkAndFree (v : Volume) (now p c : ℕ) (name : Name) : Result Volume := do
  let v ← unlinkChild v p c name
  if (v.inodes c).linksCnt = 0 then freeInode v now c else return v

theorem unlinkChild_ok {p c : ℕ} {name : Name} (h : unlinkChild v p c name = .ok v')
    (hne : c ≠ p) (hplain : Plain name) :
    v'.inodesCount = v.inodesCount ∧ v'.dirIndex = v.dirIndex ∧
      (∀ j, j ≠ p → j ≠ c → v'.inodes j = v.inodes j) ∧
      v'.inodes p = countLink ((v.inodes c).type == .dir) linksCountDec
        (eraseName name (v.inodes p)) ∧
      ((v.inodes c).type = .dir ∧ ¬ dirHasChildren (v.inodes c) = true ∧
          v'.inodes c = { v.inodes c with linksCnt := 0 } ∨
        (v.inodes c).type ≠ .dir ∧ v'.inodes c = linksCountDec (v.inodes c)) := by
  unfold unlinkChild at h
  dsimp only at h
  split at h
  · cases h
  · next hchildren =>
    obtain ⟨v₁, hremove, h⟩ := bind_ok h
    have heq := removeEntry_ok hremove hplain
    subst heq
    by_cases hdir : (v.inodes c).type = .dir
    · rw [if_pos hdir] at h
      cases h
      refine ⟨rfl, rfl, fun j hp hc => ?_, ?_, .inl ⟨hdir, fun hn => hchildren ⟨hdir, hn⟩, ?_⟩⟩
      · rw [Volume.modify_of_ne _ _ _ hc, Volume.modify_of_ne _ _ _ hp,
          Volume.modify_of_ne _ _ _ hp]
      · rw [Volume.modify_of_ne _ _ _ hne.symm, Volume.modify_self, Volume.modify_self, hdir]
        rfl
      · rw [Volume.modify_self, Volume.modify_of_ne _ _ _ hne, Volume.modify_of_ne _ _ _ hne]
    · rw [if_neg hdir] at h
      cases h
      refine ⟨rfl, rfl, fun j hp hc => ?_, ?_, .inr ⟨hdir, ?_⟩⟩
      · rw [Volume.modify_of_ne _ _ _ hc, Volume.modify_of_ne _ _ _ hp]
      · rw [Volume.modify_of_ne _ _ _ hne.symm, Volume.modify_self,
          beq_eq_false_iff_ne.mpr hdir]
        rfl
      · rw [Volume.modify_self, Volume.modify_of_ne _ _ _ hne]

theorem unlinkAndFree_unlinked {now p c : ℕ} {name : Name}
    (h : unlinkAndFree v now p c name = .ok v') (hv : Tree v) (hp : LiveDir v p)
    (hplain : Plain name) (hfound : findName (v.inodes p).entries name = some c) :
    Unlinked v v' p name c := by
  have hnamed : namesIn v p c ≠ 0 := (namesIn_pos hp (mem_of_findName hfound)).ne'
  have hne : c ≠ p := by
    intro heq
    rw [heq, hv.namesIn_self hp] at hnamed
    exact hnamed rfl
  have hused := hv.named p c hnamed
  obtain ⟨v₁, hunlink, h⟩ := bind_ok h
  obtain ⟨hcount, hindex, hframe, hparent, hchild⟩ := unlinkChild_ok hunlink hne hplain
  split at h
  · next hzero =>
    unfold freeInode at h
    split at h
    · cases h
      refine ⟨hcount, hindex, fun j hjp hjc => ?_, hp, hne, hfound, ?_, ?_⟩
      · rw [Volume.modify_of_ne _ _ _ hjc, hframe j hjp hjc]
      · rw [Volume.modify_of_ne _ _ _ hne.symm, hparent]
      · rw [Volume.modify_self]
        rcases hchild with ⟨hdir, hempty, heq⟩ | ⟨hfile, heq⟩
        · rw [heq]
          exact .dir now hdir (entries_of_no_children (hv.names c ⟨hused, hdir⟩) hempty)
        · rw [heq]
          rw [heq] at hzero
          exact .last now hfile hzero
    · cases h
  · next hlinks =>
    cases h
    refine ⟨hcount, hindex, hframe, hp, hne, hfound, hparent, ?_⟩
    rcases hchild with ⟨-, -, heq⟩ | ⟨hfile, heq⟩
    · rw [heq] at hlinks
      exact absurd rfl hlinks
    · rw [heq]
      rw [heq] at hlinks
      exact .more hfile hlinks

/-- **An unlink takes one name away**, the one it finds. -/
theorem unlink_unlinked {env : Env} {p : ℕ} {name : Name} (h : unlink v env p name = .ok v')
    (hv : Tree v) (hp : LiveDir v p) :
    ∃ c, findEntry v (v.inodes p) name = some c ∧ Unlinked v v' p name c := by
  obtain ⟨unreferenced, hex⟩ := map_snd_ok h
  unfold unlinkEx at hex
  split at hex
  · cases hex
  split at hex
  · cases hex
  · next hdots =>
    have hplain : Plain name := not_or.mp hdots
    rw [findEntry_of_plain hplain] at hex
    cases hfound : findName (v.inodes p).entries name with
    | none => rw [hfound] at hex; cases hex
    | some c =>
        rw [hfound] at hex
        dsimp only at hex
        split at hex
        · cases hex
        · have hshared : unlinkAndFree v env.now p c name = .ok v' := by
            obtain ⟨v₁, hunlink, hex⟩ := bind_ok hex
            unfold unlinkAndFree
            rw [hunlink]
            change (if (v₁.inodes c).linksCnt = 0 then freeInode v₁ env.now c else .ok v₁) = _
            split at hex
            · next hzero =>
              rw [if_neg (by decide)] at hex
              obtain ⟨v₂, hfree, hex⟩ := bind_ok hex
              cases hex
              rw [if_pos hzero, hfree]
            · next hlinks =>
              cases hex
              rw [if_neg hlinks]
          exact ⟨c, (findEntry_of_plain hplain).trans hfound,
            unlinkAndFree_unlinked hshared hv hp hplain hfound⟩

/-! ## Renaming -/

/-- **The walk of a rename that comes to its end, every block on it read, has not met the
    directory that moves.** -/
theorem checkAncestry_avoids (hv : Tree v) {unreadable : ℕ → Bool} {child : ℕ} (fuel : ℕ)
    {walk : ℕ} (hread : ∀ n, unreadable ((parentOf v)^[n] walk) = false) (hwalk : LiveDir v walk)
    (h : checkAncestry v unreadable child fuel walk = .ok ()) :
    Avoids (parentOf v) rootIno child walk := by
  induction fuel generalizing walk with
  | zero => cases h
  | succ fuel ih =>
      unfold checkAncestry at h
      have hparent : dirParentInode v unreadable walk = parentOf v walk := by
        rw [dirParentInode, show unreadable walk = false from hread 0,
          if_neg Bool.false_ne_true]
        rfl
      rw [hparent] at h
      split at h
      · next hroot =>
        rw [hroot]
        exact .root
      · next hroot =>
        split at h
        · cases h
        · next hchild =>
          have hlive := hv.live_parentOf hwalk
          dsimp only at h
          rw [if_neg] at h
          · exact .step hchild (ih (fun n => hread (n + 1)) hlive h)
          · rintro (hzero | hself)
            · exact (hv.bounded _ hlive.1).1.ne' hzero
            · exact hroot ((hv.rooted walk hwalk).eq_root hself)

/-- On a tree the walk comes to its end. -/
theorem checkAncestry_terminates (hv : Tree v) (unreadable : ℕ → Bool) (child : ℕ) {walk : ℕ}
    (hwalk : LiveDir v walk) :
    checkAncestry v unreadable child (v.inodesCount + 1) walk ≠ .error (Errno.diverges, v) := by
  have hstop : ∀ n fuel d, LiveDir v d → (parentOf v)^[n] d = rootIno → n < fuel →
      checkAncestry v unreadable child fuel d ≠ .error (Errno.diverges, v) := by
    intro n
    induction n with
    | zero =>
        intro fuel d _ hroot hlt
        obtain ⟨fuel, rfl⟩ := Nat.exists_eq_succ_of_ne_zero (Nat.ne_zero_of_lt hlt)
        unfold checkAncestry
        rw [if_pos (show d = rootIno from hroot)]
        exact fun hn => nomatch hn
    | succ n ih =>
        intro fuel d hd hroot hlt
        obtain ⟨fuel, rfl⟩ := Nat.exists_eq_succ_of_ne_zero (Nat.ne_zero_of_lt hlt)
        unfold checkAncestry
        split
        · exact fun hn => nomatch hn
        split
        · exact fun hn => nomatch hn
        dsimp only
        split
        · exact fun hn => nomatch hn
        · next hgo =>
          have hparent : dirParentInode v unreadable d = parentOf v d := by
            unfold dirParentInode at hgo ⊢
            split
            · next hbad => exact absurd (.inl (if_pos hbad)) hgo
            · rfl
          rw [hparent]
          exact ih fuel _ (hv.live_parentOf hd) hroot (Nat.lt_of_succ_lt_succ hlt)
  obtain ⟨n, hlt, hroot⟩ := Rooted.exists_lt_card
    (s := (Finset.range (v.inodesCount + 1)).filter (LiveDir v))
    (fun d hd _ => by
      have hlive := hv.live_parentOf (Finset.mem_filter.mp hd).2
      exact Finset.mem_filter.mpr
        ⟨Finset.mem_range.mpr (Nat.lt_succ_of_le (hv.bounded _ hlive.1).2), hlive⟩)
    (Finset.mem_filter.mpr
      ⟨Finset.mem_range.mpr (Nat.lt_succ_of_le (hv.bounded _ hwalk.1).2), hwalk⟩)
    (hv.rooted walk hwalk)
  have hcard := Finset.card_filter_le (Finset.range (v.inodesCount + 1)) (LiveDir v)
  rw [Finset.card_range] at hcard
  exact hstop n _ walk hwalk hroot (lt_of_lt_of_le hlt hcard)

theorem linkChild_rename {pos p c : ℕ} {name : Name} (h : linkChild v pos p c name true = .ok v')
    (hne : c ≠ p) (hdotdot : (v.inodes c).type = .dir → (v.inodes c).dotdot ≠ none) :
    v'.inodesCount = v.inodesCount ∧ v'.dirIndex = v.dirIndex ∧
      (∀ j, j ≠ p → j ≠ c → v'.inodes j = v.inodes j) ∧
      v'.inodes p = countLink ((v.inodes c).type == .dir) (linksCountInc v)
        (addEntry pos name c (v.inodes p)) ∧
      v'.inodes c = countLink ((v.inodes c).type == .dir)
        (fun d => { d with dotdot := some p }) (v.inodes c) := by
  unfold linkChild at h
  split at h
  · cases h
  · dsimp only at h
    rw [Volume.modify_of_ne _ _ _ hne] at h
    by_cases hdir : (v.inodes c).type = .dir
    · -- linear or indexed, the same `..` is written
      have hmod : ∃ f : Inode → Inode, f (v.inodes c) = { v.inodes c with dotdot := some p } ∧
          v' = ((v.modify p (addEntry pos name c)).modify c f).modify p
            (linksCountInc ((v.modify p (addEntry pos name c)).modify c f)) := by
        rw [if_pos hdir, if_neg (by decide)] at h
        split at h
        · split at h
          · cases h
          · cases h
            exact ⟨setDotdot p, if_pos (hdotdot hdir), rfl⟩
        · cases h
          exact ⟨_, rfl, rfl⟩
      obtain ⟨f, hf, rfl⟩ := hmod
      rw [hdir]
      refine ⟨rfl, rfl, fun j hp hc => ?_, ?_, ?_⟩
      · rw [Volume.modify_of_ne _ _ _ hp, Volume.modify_of_ne _ _ _ hc,
          Volume.modify_of_ne _ _ _ hp]
      · rw [Volume.modify_self, Volume.modify_of_ne _ _ _ hne.symm, Volume.modify_self]
        rfl
      · rw [Volume.modify_of_ne _ _ _ hne, Volume.modify_self, Volume.modify_of_ne _ _ _ hne, hf]
        rfl
    · rw [if_neg hdir, if_neg (by decide)] at h
      cases h
      rw [beq_eq_false_iff_ne.mpr hdir]
      exact ⟨rfl, rfl, fun j hp _ => Volume.modify_of_ne _ _ _ hp, Volume.modify_self ..,
        Volume.modify_of_ne _ _ _ hne⟩

/-- Within a tree the one entry of a directory is not found under two names. -/
theorem Tree.same_entry (hv : Tree v) {sp dp c : ℕ} {sn dn : Name} (hsp : LiveDir v sp)
    (hdp : LiveDir v dp) (hdir : (v.inodes c).type = .dir)
    (hsrc : findName (v.inodes sp).entries sn = some c)
    (hdst : findName (v.inodes dp).entries dn = some c) : sp = dp ∧ sn = dn := by
  have hsc : namesIn v sp c ≠ 0 := (namesIn_pos hsp (mem_of_findName hsrc)).ne'
  have hdc : namesIn v dp c ≠ 0 := (namesIn_pos hdp (mem_of_findName hdst)).ne'
  have hlive : LiveDir v c := ⟨hv.named sp c hsc, hdir⟩
  obtain ⟨hroot, hps, -⟩ := hv.parentOf_eq hlive hsc
  obtain ⟨-, hpd, -⟩ := hv.parentOf_eq hlive hdc
  have heq : sp = dp := Option.some.inj (hps.symm.trans hpd)
  subst heq
  refine ⟨rfl, ?_⟩
  by_contra hne
  -- with the first entry taken away the second still counts
  have hperm := eraseName_perm hsrc
  have hmem : ⟨dn, c⟩ ∈ (eraseName sn (v.inodes sp)).entries := by
    rcases List.mem_cons.mp (hperm.mem_iff.mp (mem_of_findName hdst)) with heq | hmem
    · exact absurd (congrArg Dirent.name heq).symm hne
    · exact hmem
  have htwo : 0 < (eraseName sn (v.inodes sp)).entries.countP fun e => e.inode == c :=
    List.countP_pos_iff.mpr ⟨_, hmem, beq_self_eq_true c⟩
  obtain ⟨p, -, hp⟩ := hv.parent c hlive hroot
  have hone := hp sp
  rw [namesIn, Inode.countOf, if_pos hsp, hperm.countP_eq, List.countP_cons,
    if_pos (beq_self_eq_true c)] at hone
  split at hone <;> omega

/-- `moveEntry` on a volume where the way is free. -/
theorem moveEntry_moved {env : Env} {sp dp c : ℕ} {sn dn : Name} (hv : Tree v)
    (h : moveEntry v env sp sn dp dn c = .ok v') (hsp : LiveDir v sp) (hdp : LiveDir v dp)
    (hsn : Plain sn) (hdn : Plain dn) (hfound : findName (v.inodes sp).entries sn = some c)
    (habsent : dn ∉ (v.inodes dp).entries.map Dirent.name ∨ sp = dp ∧ sn = dn)
    (havoids : (v.inodes c).type = .dir → sp ≠ dp → Avoids (parentOf v) rootIno c dp) :
    Moved v v' sp sn dp dn c := by
  have hnamed : namesIn v sp c ≠ 0 := (namesIn_pos hsp (mem_of_findName hfound)).ne'
  have hused := hv.named sp c hnamed
  have hself : ∀ d, LiveDir v d → d ≠ c ∨ namesIn v d c = 0 := fun d hd => by
    by_cases heq : d = c
    · exact .inr (heq ▸ hv.namesIn_self hd)
    · exact .inl heq
  have hnesp : c ≠ sp := ((hself sp hsp).resolve_right hnamed).symm
  have hnedp : c ≠ dp := by
    intro heq
    have hdir : (v.inodes c).type = .dir := heq ▸ hdp.2
    by_cases hsame : sp = dp
    · exact hnesp (heq.trans hsame.symm)
    · have hroot := (havoids hdir hsame).eq_root heq.symm
      rw [heq, hroot, hv.rootUnnamed] at hnamed
      exact hnamed rfl
  have hdotdot : (v.inodes c).type = .dir → (v.inodes c).dotdot ≠ none := fun hdir hn => by
    obtain ⟨-, hpar, -⟩ := hv.parentOf_eq (d := sp) ⟨hused, hdir⟩ hnamed
    rw [hpar] at hn
    cases hn
  obtain ⟨v₁, hlink, h⟩ := bind_ok h
  obtain ⟨v₂, hremove, h⟩ := bind_ok h
  obtain ⟨hcount, hindex, hframe, hparent, hchild⟩ := linkChild_rename hlink hnedp hdotdot
  have heq := removeEntry_ok hremove hsn
  subst heq
  rw [Volume.modify_of_ne _ _ _ hnesp] at h
  have htype : (v₁.inodes c).type = (v.inodes c).type := by
    rw [hchild, countLink]
    split <;> rfl
  rw [htype] at h
  by_cases hsame : sp = dp
  · subst hsame
    rw [if_neg fun hn => hn.2 rfl] at h
    cases h
    refine ⟨hcount, hindex, fun j hs _ hc => ?_, hsp, hdp, hnesp, hnedp, hdn, hfound, habsent,
      fun _ => ⟨env.pos, ?_⟩, fun hn => absurd rfl hn, fun hn => absurd rfl hn, ?_, havoids⟩
    · rw [Volume.modify_of_ne _ _ _ hs, hframe j hs hc]
    · rw [Volume.modify_self, hparent]
    · rw [Volume.modify_of_ne _ _ _ hnesp, hchild]
  · have hsrc : v₁.inodes sp = v.inodes sp := hframe sp hsame hnesp.symm
    by_cases hdir : (v.inodes c).type = .dir
    · rw [if_pos ⟨hdir, hsame⟩] at h
      cases h
      rw [hdir] at hparent hchild
      refine ⟨hcount, hindex, fun j hs hd hc => ?_, hsp, hdp, hnesp, hnedp, hdn, hfound, habsent,
        fun hn => absurd hn hsame, fun _ => ?_, fun _ => ⟨env.pos, ?_⟩, ?_, havoids⟩
      · rw [Volume.modify_of_ne _ _ _ hs, Volume.modify_of_ne _ _ _ hs, hframe j hd hc]
      · rw [Volume.modify_self, Volume.modify_self, hsrc, hdir]
        rfl
      · rw [Volume.modify_of_ne _ _ _ (Ne.symm hsame), Volume.modify_of_ne _ _ _ (Ne.symm hsame),
          hparent, hdir]
      · rw [Volume.modify_of_ne _ _ _ hnesp, Volume.modify_of_ne _ _ _ hnesp, hchild, hdir]
    · rw [if_neg fun hn => hdir hn.1] at h
      cases h
      rw [beq_eq_false_iff_ne.mpr hdir] at hparent hchild
      refine ⟨hcount, hindex, fun j hs hd hc => ?_, hsp, hdp, hnesp, hnedp, hdn, hfound, habsent,
        fun hn => absurd hn hsame, fun _ => ?_, fun _ => ⟨env.pos, ?_⟩, ?_, havoids⟩
      · rw [Volume.modify_of_ne _ _ _ hs, hframe j hd hc]
      · rw [Volume.modify_self, hsrc, beq_eq_false_iff_ne.mpr hdir]
        rfl
      · rw [Volume.modify_of_ne _ _ _ (Ne.symm hsame), hparent, beq_eq_false_iff_ne.mpr hdir]
      · rw [Volume.modify_of_ne _ _ _ hnesp, hchild, beq_eq_false_iff_ne.mpr hdir]

/-- **A rename is a move, after an unlink where a target is in the way**, unless an unreadable
    directory hides that `dp` is below what moves, or `dn` is another name of it. -/
theorem rename_moved {env : Env} {sp dp : ℕ} {sn dn : Name}
    (h : rename v env sp sn dp dn = .ok v') (hv : Tree v) (hsp : LiveDir v sp)
    (hdp : LiveDir v dp) (hsn : Plain sn) (hdn : Plain dn)
    (hread : ∀ c, (v.inodes c).type = .dir → findName (v.inodes sp).entries sn = some c →
      (∀ n, env.unreadable ((parentOf v)^[n] dp) = false) ∨ ∀ n, (parentOf v)^[n] dp ≠ c)
    (honto : ∀ c, (v.inodes c).type ≠ .dir → findName (v.inodes sp).entries sn = some c →
      findName (v.inodes dp).entries dn = some c → sp = dp ∧ sn = dn) :
    ∃ c v₁, findName (v.inodes sp).entries sn = some c ∧
      (v₁ = v ∨ ∃ victim, Unlinked v v₁ dp dn victim ∧
        ((v.inodes victim).type = .dir ↔ (v.inodes c).type = .dir)) ∧
      (Tree v₁ → Moved v₁ v' sp sn dp dn c) := by
  unfold rename at h
  split at h
  · cases h
  rw [findEntry_of_plain hsn] at h
  cases hfound : findName (v.inodes sp).entries sn with
  | none => rw [hfound] at h; cases h
  | some c =>
      rw [hfound] at h
      dsimp only at h
      split at h
      · cases h
      have hnamed : namesIn v sp c ≠ 0 := (namesIn_pos hsp (mem_of_findName hfound)).ne'
      have hsplit : ∃ v₁, ((v.inodes c).type = .dir → sp ≠ dp →
          Avoids (parentOf v) rootIno c dp) ∧
          replaceTarget v env dp dn c = .ok v₁ ∧ moveEntry v₁ env sp sn dp dn c = .ok v' := by
        split at h
        · obtain ⟨u, hwalk, h⟩ := bind_ok h
          obtain ⟨v₁, hreplace, h⟩ := bind_ok h
          refine ⟨v₁, fun hdir _ => ?_, hreplace, h⟩
          rcases hread c hdir hfound with hread | haway
          · exact checkAncestry_avoids hv _ hread hdp hwalk
          · exact (hv.rooted dp hdp).avoids haway
        · next hno =>
          obtain ⟨v₁, hreplace, h⟩ := bind_ok h
          exact ⟨v₁, fun hdir hne => absurd ⟨hdir, Ne.symm hne⟩ hno, hreplace, h⟩
      obtain ⟨v₁, havoids, hreplace, hmove⟩ := hsplit
      refine ⟨c, v₁, rfl, ?_⟩
      unfold replaceTarget at hreplace
      rw [findEntry_of_plain hdn] at hreplace
      cases hdst : findName (v.inodes dp).entries dn with
      | none =>
          rw [hdst] at hreplace
          cases hreplace
          exact ⟨.inl rfl, fun _ => moveEntry_moved hv hmove hsp hdp hsn hdn hfound
            (.inl (findName_eq_none.mp hdst)) havoids⟩
      | some victim =>
          rw [hdst] at hreplace
          dsimp only at hreplace
          split at hreplace
          · next heq =>
            cases hreplace
            subst heq
            refine ⟨.inl rfl, fun _ => moveEntry_moved hv hmove hsp hdp hsn hdn hfound
              (.inr ?_) havoids⟩
            by_cases hdir : (v.inodes victim).type = .dir
            · exact hv.same_entry hsp hdp hdir hfound hdst
            · exact honto victim hdir hfound hdst
          · next hne =>
            split at hreplace
            · cases hreplace
            next hfile =>
            split at hreplace
            · cases hreplace
            next hdirs =>
            split at hreplace
            · cases hreplace
            have hunlink : Unlinked v v₁ dp dn victim :=
              unlinkAndFree_unlinked hreplace hv hdp hdn hdst
            have htypes : (v.inodes victim).type = .dir ↔ (v.inodes c).type = .dir := by
              constructor
              · intro hvictim
                by_contra hc
                exact hfile ⟨hc, hvictim⟩
              · intro hc
                by_contra hvictim
                exact hdirs ⟨hc, hvictim⟩
            refine ⟨.inr ⟨victim, hunlink, htypes⟩, fun hv₁ => ?_⟩
            -- the entry that moves is not in the victim
            have hnesp : sp ≠ victim := by
              intro heq
              have hempty := (hunlink.child.of_dir (heq ▸ hsp.2)).1
              rw [← heq] at hempty
              have hmem := mem_of_findName hfound
              rw [hempty] at hmem
              cases hmem
            have hsp₁ := (hunlink.live_iff sp).mpr ⟨hsp, hnesp⟩
            have hdp₁ := hunlink.live_parent
            have hc₁ : v₁.inodes c = v.inodes c := by
              refine hunlink.frame c ?_ (Ne.symm hne)
              intro heq
              by_cases hsame : sp = dp
              · rw [hsame, heq, hv.namesIn_self hdp] at hnamed
                exact hnamed rfl
              · have hroot := (havoids (heq ▸ hdp.2) hsame).eq_root heq.symm
                rw [heq, hroot, hv.rootUnnamed] at hnamed
                exact hnamed rfl
            have hperm := hunlink.perm
            have hgood := (hv.names dp hdp).perm hperm.symm
            have habsent : dn ∉ (v₁.inodes dp).entries.map Dirent.name :=
              (List.nodup_cons.mp hgood.1).1
            refine moveEntry_moved hv₁ hmove hsp₁ hdp₁ hsn hdn ?_ (.inl habsent) ?_
            · by_cases hsame : sp = dp
              · subst hsame
                have hmem : ⟨sn, c⟩ ∈ (v₁.inodes sp).entries := by
                  rcases List.mem_cons.mp (hperm.mem_iff.mp (mem_of_findName hfound)) with
                    heq | hmem
                  · exact absurd (congrArg Dirent.inode heq).symm hne
                  · exact hmem
                exact findName_of_mem (hv₁.names sp hsp₁).1 hmem
              · rw [hunlink.frame sp hsame hnesp]
                exact hfound
            · intro hdir hsame
              rw [hc₁] at hdir
              refine Avoids.congr (s := {j | LiveDir v j ∧ j ≠ victim})
                (fun j hj hroot => ⟨hv.live_parentOf hj.1, hunlink.parentOf_ne hv hj.1 hroot⟩)
                (fun j hj _ => hunlink.parentOf_eq hj.2) ⟨hdp, hunlink.ne.symm⟩
                (havoids hdir hsame)

end Ext4b
