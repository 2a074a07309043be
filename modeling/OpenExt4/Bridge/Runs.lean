import OpenExt4.Bridge.Links

set_option autoImplicit false

/-! # Runs of calls

What any sequence of successful calls does to the tree of directories and to the link counts. -/

namespace Ext4b

open Ancestry

/-! ## Calls and runs -/

/-- A call that makes, moves or removes a name. -/
inductive Call where
  | create (env : Env) (parent : ℕ) (name : Name) (type : ItemType)
  | symlink (env : Env) (blockSize parent : ℕ) (name : Name) (targetLen : ℕ)
  | hardlink (env : Env) (parent : ℕ) (name : Name) (target : ℕ)
  | unlink (env : Env) (parent : ℕ) (name : Name)
  | rename (env : Env) (srcParent : ℕ) (srcName : Name) (dstParent : ℕ) (dstName : Name)

/-- The volume the call leaves. -/
def Call.run (v : Volume) : Call → Result Volume
  | .create env parent name type => (Ext4b.create v env parent name type).map Prod.snd
  | .symlink env blockSize parent name targetLen =>
      (Ext4b.symlink v env blockSize parent name targetLen).map Prod.snd
  | .hardlink env parent name target => Ext4b.hardlink v env parent name target
  | .unlink env parent name => Ext4b.unlink v env parent name
  | .rename env srcParent srcName dstParent dstName =>
      Ext4b.rename v env srcParent srcName dstParent dstName

/-- A sequence of calls that return success, each meeting `P`. -/
inductive Run (P : Volume → Call → Prop) : Volume → Volume → Prop
  | refl (v : Volume) : Run P v v
  | step {v w x : Volume} (call : Call) : Run P v w → P w call → call.run w = .ok x → Run P v x

/-- What every call keeps, a run keeps. -/
theorem Run.invariant {P : Volume → Call → Prop} {I : Volume → Prop}
    (hstep : ∀ v call v', P v call → call.run v = .ok v' → I v → I v') {v v' : Volume}
    (h : Run P v v') (hv : I v) : I v' := by
  induction h with
  | refl => exact hv
  | step call _ hcall hrun ih => exact hstep _ _ _ hcall hrun ih

/-! ## What a call has to be given -/

/-- The call is made on allocated directories and with names other than `.` and `..`, a hard link on
    an allocated inode; and a rename can read the `..` of every directory above the new parent, or
    what moves is none of them. -/
def Ordinary (v : Volume) : Call → Prop
  | .create _ parent name _ => LiveDir v parent ∧ Plain name
  | .symlink _ _ parent name _ => LiveDir v parent ∧ Plain name
  | .hardlink _ parent name target =>
      LiveDir v parent ∧ Plain name ∧ (v.inodes target).inUse = true
  | .unlink _ parent _ => LiveDir v parent
  | .rename env srcParent srcName dstParent dstName =>
      LiveDir v srcParent ∧ LiveDir v dstParent ∧ Plain srcName ∧ Plain dstName ∧
        ((∀ n, env.unreadable ((parentOf v)^[n] dstParent) = false) ∨
          ∀ c, findName (v.inodes srcParent).entries srcName = some c →
            ∀ n, (parentOf v)^[n] dstParent ≠ c)

/-- The call creates, unlinks or renames a directory. -/
def OnDirectory (v : Volume) : Call → Prop
  | .create _ _ _ type => type = .dir
  | .symlink .. => False
  | .hardlink .. => False
  | .unlink _ parent name =>
      ∃ c, findEntry v (v.inodes parent) name = some c ∧ (v.inodes c).type = .dir
  | .rename _ srcParent srcName _ _ =>
      ∃ c, findEntry v (v.inodes srcParent) srcName = some c ∧ (v.inodes c).type = .dir

/-- The counts that grow have room in their 16 bits; a directory is not renamed within its parent,
    unless the count of the parent stands at 1; and another inode is not renamed onto one of its
    other names. -/
def Counted (v : Volume) : Call → Prop
  | .create _ parent _ type => type = .dir → (v.inodes parent).linksCnt + 1 < 2 ^ 16
  | .symlink .. => True
  | .hardlink _ _ _ target => (v.inodes target).linksCnt + 1 < 2 ^ 16
  | .unlink .. => True
  | .rename _ srcParent srcName dstParent dstName =>
      ∀ c, findName (v.inodes srcParent).entries srcName = some c →
        ((v.inodes c).type = .dir →
          (srcParent = dstParent → (v.inodes srcParent).linksCnt = 1) ∧
          (srcParent ≠ dstParent → findName (v.inodes dstParent).entries dstName = none →
            (v.inodes dstParent).linksCnt + 1 < 2 ^ 16)) ∧
        ((v.inodes c).type ≠ .dir → findName (v.inodes dstParent).entries dstName = some c →
          srcParent = dstParent ∧ srcName = dstName)

/-! ## The tree of directories -/

/-- Every allocated directory but the root is named by one entry other than `.` and `..`, its `.`
    names itself, its `..` the directory with that entry, and `..` leads from every directory to the
    root. -/
structure DirectoryTree (v : Volume) : Prop where
  named : ∀ c, LiveDir v c → c ≠ rootIno → (v.inodes c).dot = some c ∧
    ∃ p, LiveDir v p ∧ (v.inodes c).dotdot = some p ∧ ∀ d, namesIn v d c = if d = p then 1 else 0
  rooted : ∀ c, LiveDir v c → ∃ n, (parentOf v)^[n] c = rootIno

theorem Tree.directoryTree {v : Volume} (hv : Tree v) : DirectoryTree v where
  named c hc hroot := by
    obtain ⟨p, hdotdot, hp⟩ := hv.parent c hc hroot
    have hparent : parentOf v c = p := by
      rw [parentOf, hdotdot]
      rfl
    exact ⟨hv.dot c hc, p, hparent ▸ hv.live_parentOf hc, hdotdot, hp⟩
  rooted c hc := (hv.rooted c hc).iterate

section Step

variable {v v' : Volume}

theorem create_linked {env : Env} {p : ℕ} {name : Name} {type : ItemType}
    (h : (Call.create env p name type).run v = .ok v') (hp : LiveDir v p) (hplain : Plain name) :
    ∃ c, Linked v v' p name c ∧ (v.inodes c).inUse = false ∧ (v'.inodes c).type = type := by
  obtain ⟨c, hcreate⟩ := map_snd_ok h
  unfold Ext4b.create at hcreate
  split at hcreate
  · cases hcreate
  · exact ⟨c, createCommon_linked hcreate hp hplain⟩

theorem symlink_linked {env : Env} {blockSize p : ℕ} {name : Name} {targetLen : ℕ}
    (h : (Call.symlink env blockSize p name targetLen).run v = .ok v') (hp : LiveDir v p)
    (hplain : Plain name) :
    ∃ c, Linked v v' p name c ∧ (v.inodes c).inUse = false ∧ (v'.inodes c).type = .symlink := by
  obtain ⟨c, hcreate⟩ := map_snd_ok h
  unfold Ext4b.symlink at hcreate
  split at hcreate
  · cases hcreate
  split at hcreate
  · cases hcreate
  · exact ⟨c, createCommon_linked hcreate hp hplain⟩

/-- One call on a directory keeps the tree. -/
theorem Tree.run (hv : Tree v) {call : Call} (h : call.run v = .ok v') (hord : Ordinary v call)
    (hdir : OnDirectory v call) : Tree v' := by
  cases call with
  | create env parent name type =>
      obtain ⟨c, hlinked, -, -⟩ := create_linked h hord.1 hord.2
      exact hv.linked hlinked
  | symlink => exact hdir.elim
  | hardlink => exact hdir.elim
  | unlink env parent name =>
      obtain ⟨c, hfound, hunlinked⟩ := unlink_unlinked h hv hord
      obtain ⟨c', hfound', hdir⟩ := hdir
      rw [hfound] at hfound'
      cases hfound'
      exact hv.unlinked hunlinked fun hfile => absurd hdir hfile
  | rename env sp sn dp dn =>
      obtain ⟨hsp, hdp, hsn, hdn, hread⟩ := hord
      obtain ⟨c, hfind, hdir⟩ := hdir
      rw [findEntry_of_plain hsn] at hfind
      have honly : ∀ c', findName (v.inodes sp).entries sn = some c' → c' = c := fun c' hc' =>
        Option.some.inj (hc'.symm.trans hfind)
      obtain ⟨c', v₁, hfound, hreplaced, hmoved⟩ := rename_moved h hv hsp hdp hsn hdn
        (fun c' _ hc' => hread.imp_right fun haway => haway c' hc')
        fun c' hfile hc' => absurd (honly c' hc' ▸ hdir) hfile
      have heq := honly c' hfound
      subst heq
      rcases hreplaced with rfl | ⟨victim, hunlinked, htypes⟩
      · exact hv.moved (hmoved hv)
      · have hv₁ := hv.unlinked hunlinked fun hfile => absurd (htypes.mpr hdir) hfile
        exact hv₁.moved (hmoved hv₁)

/-- The count of a directory that lost a subdirectory has room for one. -/
theorem linksCountDec_room {d : Inode} (hdir : d.type = .dir) (hlt : d.linksCnt < 2 ^ 16) :
    (linksCountDec d).linksCnt + 1 < 2 ^ 16 ∧
      (d.linksCnt = 1 → (linksCountDec d).linksCnt = 1) := by
  unfold linksCountDec
  dsimp only
  rw [if_neg (not_not.mpr hdir)]
  split <;> constructor <;> omega

/-- One call that meets the conditions keeps the tree and the counts. -/
theorem Links.run (hl : Links v) (hv : Tree v) {call : Call} (h : call.run v = .ok v')
    (hord : Ordinary v call) (hcounted : Counted v call) : Tree v' ∧ Links v' := by
  cases call with
  | create env parent name type =>
      obtain ⟨c, hlinked, hfree, htype⟩ := create_linked h hord.1 hord.2
      refine ⟨hv.linked hlinked, hl.linked hv hlinked (fun hdir => hcounted (htype ▸ hdir)) ?_⟩
      intro hused
      rw [hfree] at hused
      cases hused
  | symlink env blockSize parent name targetLen =>
      obtain ⟨c, hlinked, hfree, htype⟩ := symlink_linked h hord.1 hord.2
      refine ⟨hv.linked hlinked, hl.linked hv hlinked ?_ ?_⟩
      · intro hdir
        rw [htype] at hdir
        cases hdir
      · intro hused
        rw [hfree] at hused
        cases hused
  | hardlink env parent name target =>
      obtain ⟨hp, hplain, hused⟩ := hord
      obtain ⟨hlinked, hfile⟩ := hardlink_linked h hp hplain hused
      refine ⟨hv.linked hlinked, hl.linked hv hlinked (fun hdir => ?_) fun _ => hcounted⟩
      rw [hlinked.type_eq hused] at hdir
      exact absurd hdir hfile
  | unlink env parent name =>
      obtain ⟨c, -, hunlinked⟩ := unlink_unlinked h hv hord
      exact ⟨hv.unlinked_of_links hl hunlinked, hl.unlinked hv hunlinked⟩
  | rename env sp sn dp dn =>
      obtain ⟨hsp, hdp, hsn, hdn, hread⟩ := hord
      obtain ⟨c, v₁, hfound, hreplaced, hmoved⟩ := rename_moved h hv hsp hdp hsn hdn
        (fun c _ hc => hread.imp_right fun haway => haway c hc)
        fun c hfile hc hdst => (hcounted c hc).2 hfile hdst
      have hdirs := (hcounted c hfound).1
      rcases hreplaced with rfl | ⟨victim, hunlinked, htypes⟩
      · have hm := hmoved hv
        refine ⟨hv.moved hm, hl.moved hv hm (fun hdir => (hdirs hdir).1) fun hdir hne => ?_⟩
        have habsent := hm.absent.resolve_right fun hn => hne hn.1
        exact (hdirs hdir).2 hne (findName_eq_none.mpr habsent)
      · have hv₁ := hv.unlinked_of_links hl hunlinked
        have hl₁ := hl.unlinked hv hunlinked
        have hm := hmoved hv₁
        have hroom : (v.inodes c).type = .dir → (v₁.inodes dp).linksCnt + 1 < 2 ^ 16 ∧
            ((v.inodes dp).linksCnt = 1 → (v₁.inodes dp).linksCnt = 1) := fun hdir => by
          rw [hunlinked.parent, htypes.mpr hdir]
          exact linksCountDec_room (d := eraseName dn (v.inodes dp)) hdp.2 (hl.width dp hdp.1)
        refine ⟨hv₁.moved hm, hl₁.moved hv₁ hm (fun hdir heq => ?_) fun hdir _ => ?_⟩
        · rw [hunlinked.type_eq] at hdir
          subst heq
          exact (hroom hdir).2 ((hdirs hdir).1 rfl)
        · rw [hunlinked.type_eq] at hdir
          exact (hroom hdir).1

end Step

/-! ## A small volume -/

/-- A directory of the small volume. -/
def smallDir (ino parent linksCnt : ℕ) (entries : List Dirent) : Inode :=
  { freshInode .dir with
    linksCnt := linksCnt, dot := some ino, dotdot := some parent, entries := entries }

/-- The root holds directory 11 as `a`, which holds directory 12 as `b`. -/
def smallVolume : Volume where
  inodes i :=
    if i = 2 then smallDir 2 2 3 [⟨[0x61], 11⟩]
    else if i = 11 then smallDir 11 2 3 [⟨[0x62], 12⟩]
    else if i = 12 then smallDir 12 11 2 []
    else { freshInode .file with inUse := false }
  inodesCount := 16
  firstInode := 11
  lastOrphan := 0
  dirIndex := false

/-- Every block reads, and the allocator offers inode 13. -/
def smallEnv : Env where
  ialloc := 13
  pos := 0
  now := 1
  unreadable _ := false

theorem smallVolume_inUse {i : ℕ} (h : (smallVolume.inodes i).inUse = true) :
    i = 2 ∨ i = 11 ∨ i = 12 := by
  by_contra hne
  rw [not_or, not_or] at hne
  rw [smallVolume] at h
  dsimp only at h
  rw [if_neg hne.1, if_neg hne.2.1, if_neg hne.2.2] at h
  cases h

theorem smallVolume_namesIn (d i : ℕ) :
    namesIn smallVolume d i = if d = 2 ∧ i = 11 ∨ d = 11 ∧ i = 12 then 1 else 0 := by
  by_cases hd : d = 2 ∨ d = 11 ∨ d = 12
  · rcases hd with rfl | rfl | rfl
    · by_cases hi : i = 11
      · subst hi
        rfl
      · rw [if_neg (by omega)]
        exact List.countP_eq_zero.mpr fun e he => by
          rw [List.mem_singleton.mp he, beq_iff_eq]
          exact fun heq => hi heq.symm
    · by_cases hi : i = 12
      · subst hi
        rfl
      · rw [if_neg (by omega)]
        exact List.countP_eq_zero.mpr fun e he => by
          rw [List.mem_singleton.mp he, beq_iff_eq]
          exact fun heq => hi heq.symm
    · rw [if_neg (by omega)]
      rfl
  · rw [namesIn_of_not_live fun hlive => hd (smallVolume_inUse hlive.1), if_neg (by omega)]

theorem smallVolume_tree : Tree smallVolume where
  root := by decide
  bounded i hi := by
    have hcases := smallVolume_inUse hi
    change 0 < i ∧ i ≤ 16
    omega
  named d i hname := by
    rw [smallVolume_namesIn] at hname
    split at hname
    · next hcases =>
      rcases hcases with ⟨-, rfl⟩ | ⟨-, rfl⟩ <;> rfl
    · exact absurd rfl hname
  rootUnnamed d := by
    rw [smallVolume_namesIn, if_neg]
    rintro (⟨-, h⟩ | ⟨-, h⟩) <;> cases h
  rootDotdot := rfl
  names d hd := by
    rcases smallVolume_inUse hd.1 with rfl | rfl | rfl <;> unfold GoodNames <;> decide
  dot d hd := by
    rcases smallVolume_inUse hd.1 with rfl | rfl | rfl <;> rfl
  parent c hc hroot := by
    rcases smallVolume_inUse hc.1 with rfl | rfl | rfl
    · exact absurd rfl hroot
    · refine ⟨2, rfl, fun d => ?_⟩
      rw [smallVolume_namesIn]
      exact if_congr (by omega) rfl rfl
    · refine ⟨11, rfl, fun d => ?_⟩
      rw [smallVolume_namesIn]
      exact if_congr (by omega) rfl rfl
  rooted c hc := by
    rcases smallVolume_inUse hc.1 with rfl | rfl | rfl
    · exact .root
    · exact .step .root
    · exact .step (.step .root)

theorem smallVolume_links : Links smallVolume where
  file i hi hfile := by
    rcases smallVolume_inUse hi with rfl | rfl | rfl <;> exact absurd rfl hfile
  dir d hd := by
    rcases smallVolume_inUse hd.1 with rfl | rfl | rfl <;> exact .inl rfl
  width i hi := by
    rcases smallVolume_inUse hi with rfl | rfl | rfl <;> decide

/-! ## Runs -/

/-- **Any run of ordinary calls on directories leaves a tree of directories.** -/
theorem directoryTree_of_run {v v' : Volume} (hv : Tree v)
    (h : Run (fun v call => OnDirectory v call ∧ Ordinary v call) v v') : DirectoryTree v' :=
  Tree.directoryTree (h.invariant 
    (fun _ _ _ hcall hrun hinv => hinv.run hrun hcall.2 hcall.1) hv)

/-- A directory made in the root of the small volume, and one moved there. -/
theorem directoryTree_of_run_small : ∃ v, Run (fun v call => OnDirectory v call ∧ Ordinary v call)
    smallVolume v ∧ (v.inodes 13).inUse = true ∧ (v.inodes 12).dotdot = some 2 ∧
    DirectoryTree v := by
  have hrun : ∃ v, Run (fun v call => OnDirectory v call ∧ Ordinary v call) smallVolume v ∧
      (v.inodes 13).inUse = true ∧ (v.inodes 12).dotdot = some 2 := by
    refine ⟨_, .step (.rename smallEnv 11 [0x62] 2 [0x64])
      (.step (.create smallEnv 2 [0x63] .dir) (.refl _) ⟨rfl, by decide, by decide⟩ rfl)
      ⟨⟨12, rfl, rfl⟩, by decide, by decide, by decide, by decide, .inl fun _ => rfl⟩ rfl,
      rfl, rfl⟩
  obtain ⟨v, hv, hused, hmoved⟩ := hrun
  exact ⟨v, hv, hused, hmoved, directoryTree_of_run smallVolume_tree hv⟩

/-- **Two renames of a directory that break the tree**: one of the entry `..`, which leaves its
    directory without one, and one into a directory below what moves whose first block could not be
    read, which leaves both on a circle. -/
theorem rename_breaks_tree : ∃ v, Tree v ∧ Links v ∧
    (∃ env dst name v', OnDirectory v (.rename env 11 dotdotName dst name) ∧
      (Call.rename env 11 dotdotName dst name).run v = .ok v' ∧ ¬ DirectoryTree v') ∧
    ∃ env src name v', OnDirectory v (.rename env 2 src 12 name) ∧
      (Call.rename env 2 src 12 name).run v = .ok v' ∧ ¬ DirectoryTree v' := by
  refine ⟨smallVolume, smallVolume_tree, smallVolume_links, ?_, ?_⟩
  · refine ⟨smallEnv, 2, [0x63], _, ⟨2, rfl, rfl⟩, rfl, fun htree => ?_⟩
    obtain ⟨-, p, -, hdotdot, -⟩ := htree.named 11 (by decide) (by decide)
    cases hdotdot
  · refine ⟨{ smallEnv with unreadable := fun d => d == 12 }, [0x61], [0x63], _, ⟨11, rfl, rfl⟩,
      rfl, fun htree => ?_⟩
    obtain ⟨n, hn⟩ := htree.rooted 11 (by decide)
    -- the walk goes from 11 to 12 and back
    have hcircle : ∀ up : ℕ → ℕ, up 11 = 12 → up 12 = 11 → ∀ n, up^[n] 11 = 11 ∨
        up^[n] 11 = 12 := by
      intro up h11 h12 n
      induction n with
      | zero => exact .inl rfl
      | succ n ih =>
          rw [Function.iterate_succ_apply']
          rcases ih with heq | heq
          · rw [heq, h11]
            exact .inr rfl
          · rw [heq, h12]
            exact .inl rfl
    have hor : rootIno = 11 ∨ rootIno = 12 := by
      rw [← hn]
      refine hcircle _ ?_ ?_ n <;> rfl
    exact absurd hor (by decide)

/-- No two entries of a directory, `.` and `..` among them, have one name. -/
def OneEntryAName (v : Volume) : Prop :=
  ∀ d, LiveDir v d → (dotName :: dotdotName :: (v.inodes d).entries.map Dirent.name).Nodup

theorem Tree.oneEntryAName {v : Volume} (hv : Tree v) : OneEntryAName v := by
  intro d hd
  obtain ⟨hnodup, hplain⟩ := hv.names d hd
  refine List.nodup_cons.mpr ⟨fun hmem => ?_, List.nodup_cons.mpr ⟨fun hmem => ?_, hnodup⟩⟩
  · rcases List.mem_cons.mp hmem with heq | hmem
    · exact absurd heq (by decide)
    · obtain ⟨e, he, hname⟩ := List.mem_map.mp hmem
      exact (hplain e he).1 hname
  · obtain ⟨e, he, hname⟩ := List.mem_map.mp hmem
    exact (hplain e he).2 hname

end Ext4b
