import OpenExt4.Bridge.CheckWalk

set_option autoImplicit false

/-! # The report of the tree check

What `ext4b_check_tree` should report of a tree, and when it does. A clean report is never wrong;
the counts are those of the entries, which are the counts of the directories and files only where
each is named once. -/

namespace Ext4b.Check

open Worklist

variable (dev : Device)

/-! ## The truth -/

/-- Every directory can be read through, every entry is sound, no directory is named twice, nor the
    root at all, and the links of every directory are its own two and one for each
    subdirectory, unless it has stopped counting. -/
structure Clean : Prop where
  readable : ∀ d, Reachable dev d → ∃ a, dev.getattr d = .ok a
  through : ∀ d, Reachable dev d → (dev.readdir d).2 = none
  entries : ∀ d, Reachable dev d → ∀ e ∈ listed dev d, EntrySound dev e
  namedOnce : NamedOnce (subdirs dev) (Reachable dev)
  root : ∀ d, Reachable dev d → rootIno ∉ subdirs dev d
  links : ∀ d a, Reachable dev d → dev.getattr d = .ok a →
    a.linkCount ≤ 1 ∨ a.linkCount = 2 + (subdirs dev d).length

/-- The check took up every directory of the tree, once, counted the directories and the files, and
    found nothing wrong exactly if nothing is. -/
structure TreeChecked (c : Checked) : Prop where
  returns : c.rc = none
  once : c.taken.Nodup
  covers : ∀ d, d ∈ c.taken ↔ Reachable dev d
  directories : c.out.directories = {d | Reachable dev d}.ncard
  files : c.out.files = {f | ∃ d, Reachable dev d ∧ f ∈ files dev d}.ncard
  problems : c.out.problems = 0 ↔ Clean dev

/-- Every directory that is named is within the inode count. -/
def NamesInRange (total : ℕ) : Prop :=
  ∀ d, Reachable dev d → ∀ i ∈ subdirs dev d, i ≤ total

/-- No directory and no file is named by two entries, nor the root by any. -/
structure EachOnce (total : ℕ) : Prop where
  subdirs : NamedOnce (subdirs dev) (Reachable dev)
  root : ∀ d, Reachable dev d → rootIno ∉ Check.subdirs dev d
  inRange : NamesInRange dev total
  files : NamedOnce (files dev) (Reachable dev)

/-! ## The end of the walk -/

section End

variable {dev} {total : ℕ} {stack : InodeStack} {s : Walk}

theorem ne_zero_of_mem_subdirs {d i : ℕ} (h : i ∈ subdirs dev d) : i ≠ 0 := by
  obtain ⟨e, -, he⟩ := List.mem_filterMap.mp h
  rintro rfl
  cases ha : liveAttrs dev e with
  | none => simp [subdirOf, ha] at he
  | some a =>
      have hzero : e.inode = 0 := by
        rw [subdirOf, ha, Option.bind_some] at he
        split_ifs at he
        exact Option.some.inj he
      rw [liveAttrs, if_pos (.inr hzero)] at ha
      exact absurd ha (by simp)

/-- Before the walk, the root is met, and what is out of range. -/
theorem seen_startWalk (i : ℕ) :
    seen (startWalk total stack).visited i = true ↔ i = rootIno ∨ i = 0 ∨ total < i := by
  have hzeros : seen ⟨total, Bytes.zeros _⟩ i = true ↔ i = 0 ∨ total < i := by
    unfold seen
    split_ifs with hout
    · simp only [hout]
    · have hbit : Ext4.bit (Bytes.zeros ((total + 7) / 8)) (i - 1) = false := by
        simp [Ext4.bit, Bytes.get8, Bytes.zeros]
      rw [hbit]
      exact iff_of_false Bool.false_ne_true hout
  rw [startWalk, seen_mark, Bool.or_eq_true, decide_eq_true_eq, hzeros]

/-- Where the walk passes over no directory for its number, it goes everywhere. -/
theorem reaches_walked_iff
    (hrange : ∀ d, Reaches (walked dev total) rootIno d → ∀ i ∈ subdirs dev d, i ≤ total) (x : ℕ) :
    Reaches (walked dev total) rootIno x ↔ Reachable dev x := by
  constructor
  · intro h
    exact h.mono fun d i hi => (List.mem_filter.mp hi).1
  · intro h
    induction h with
    | refl => exact Reaches.refl
    | @tail d i _ hi ih =>
        refine ih.step (List.mem_filter.mpr ⟨hi, ?_⟩)
        exact decide_eq_true ⟨ne_zero_of_mem_subdirs hi, hrange d ih i hi⟩

theorem mem_taken_iff (h : InOrder dev total stack s) (hend : s.stack.items = [])
    (hrange : NamesInRange dev total) (d : ℕ) : d ∈ s.taken ↔ Reachable dev d := by
  have hexplored := h.explored
  rw [hend] at hexplored
  rw [hexplored.mem_taken_iff]
  refine reaches_walked_iff (fun d hd => hrange d ?_) d
  exact hd.mono fun x i hi => (List.mem_filter.mp hi).1

/-- In a clean tree of that many inodes no count of subdirectories wraps around. -/
theorem subdirs_length_le {d : ℕ} (hnodup : (subdirs dev d).Nodup)
    (hrange : ∀ i ∈ subdirs dev d, i ≤ total) : (subdirs dev d).length ≤ total := by
  have hsub : subdirs dev d ⊆ List.range' 1 total := by
    intro i hi
    have hpos := Nat.pos_of_ne_zero (ne_zero_of_mem_subdirs hi)
    exact List.mem_range'_1.mpr ⟨hpos, by have := hrange i hi; omega⟩
  have hlen := (List.subperm_of_subset hnodup hsub).length_le
  rwa [List.length_range'] at hlen

/-- **A clean report**: no problem is found exactly in a clean tree whose directories are all within
    the inode count. -/
theorem problems_eq_zero_iff (hcap : total ≤ EXT4B_CHECK_MAX_INODES)
    (h : InOrder dev total stack s) (hend : s.stack.items = []) :
    s.out.problems = 0 ↔ Clean dev ∧ NamesInRange dev total := by
  have hexplored := h.explored
  rw [hend] at hexplored
  have hnodup : s.taken.Nodup := hexplored.nodup
  have hmod : ∀ n ≤ total, (n + 2) % 2 ^ 32 = 2 + n := by
    intro n hn
    have hsmall : EXT4B_CHECK_MAX_INODES + 2 < 2 ^ 32 := by decide
    rw [Nat.mod_eq_of_lt (by omega), Nat.add_comm]
  have hunmet : (∀ i ∈ s.taken.flatMap (subdirs dev),
        ¬ seen (startWalk total stack).visited i = true) ↔
      ∀ d ∈ s.taken, ∀ i ∈ subdirs dev d, i ≠ rootIno ∧ i ≤ total := by
    simp only [List.mem_flatMap, seen_startWalk]
    constructor
    · intro hall d hd i hi
      have hnot := hall i ⟨d, hd, hi⟩
      omega
    · rintro hall i ⟨d, hd, hi⟩
      have hfine := hall d hd i hi
      have hpos := ne_zero_of_mem_subdirs hi
      omega
  rw [h.counted.problems, hunmet]
  constructor
  · rintro ⟨-, hsound, hflat, hfine⟩
    have hreached : ∀ d, d ∈ s.taken ↔ Reachable dev d := by
      intro d
      rw [hexplored.mem_taken_iff]
      refine reaches_walked_iff (fun d hd i hi => ?_) d
      exact (hfine d ((hexplored.mem_taken_iff d).mpr hd) i hi).2
    have honce : NamedOnce (subdirs dev) (Reachable dev) :=
      (namedOnce_iff_nodup hnodup hreached).mpr hflat
    refine ⟨⟨fun d hd => ?_, fun d hd => ?_, fun d hd => ?_, honce, fun d hd hroot => ?_,
      fun d a hd ha => ?_⟩, fun d hd i hi => (hfine d ((hreached d).mpr hd) i hi).2⟩
    · obtain ⟨da, hda, -⟩ := (hsound d ((hreached d).mpr hd)).links
      exact ⟨da, hda⟩
    · exact (hsound d ((hreached d).mpr hd)).through
    · exact (hsound d ((hreached d).mpr hd)).entries
    · exact (hfine d ((hreached d).mpr hd) rootIno hroot).1 rfl
    · obtain ⟨da, hda, hlinks⟩ := (hsound d ((hreached d).mpr hd)).links
      obtain rfl : a = da := by simpa [ha] using hda
      have hlen := subdirs_length_le (honce.1 d hd) fun i hi =>
        (hfine d ((hreached d).mpr hd) i hi).2
      rwa [hmod _ hlen] at hlinks
  · rintro ⟨hclean, hrange⟩
    have hreached := mem_taken_iff h hend hrange
    refine ⟨rfl, fun d hd => ?_, (namedOnce_iff_nodup hnodup hreached).mp hclean.namedOnce,
      fun d hd i hi => ?_⟩
    · have hd := (hreached d).mp hd
      obtain ⟨da, hda⟩ := hclean.readable d hd
      have hlen := subdirs_length_le (hclean.namedOnce.1 d hd) (hrange d hd)
      refine ⟨⟨da, hda, ?_⟩, hclean.through d hd, hclean.entries d hd⟩
      rw [hmod _ hlen]
      exact hclean.links d da hd hda
    · have hd := (hreached d).mp hd
      exact ⟨fun heq => hclean.root d hd (heq ▸ hi), hrange d hd i hi⟩

/-- The directories counted are the root and one for each entry that names a directory. -/
theorem directories_eq_ncard_iff (h : InOrder dev total stack s)
    (hnodup : s.taken.Nodup) (hreached : ∀ d, d ∈ s.taken ↔ Reachable dev d) :
    s.out.directories = {d | Reachable dev d}.ncard ↔
      NamedOnce (subdirs dev) (Reachable dev) ∧ ∀ d, Reachable dev d → rootIno ∉ subdirs dev d := by
  have hmem : ∀ x, x ∈ {d | Reachable dev d} ↔ x ∈ rootIno :: s.taken.flatMap (subdirs dev) := by
    intro x
    rw [Set.mem_ofPred_eq, List.mem_cons, List.mem_flatMap]
    constructor
    · intro hx
      rcases hx.root_or_succ with hroot | ⟨d, hd, hi⟩
      · exact .inl hroot
      · exact .inr ⟨d, (hreached d).mpr hd, hi⟩
    · rintro (rfl | ⟨d, hd, hi⟩)
      · exact Reaches.refl
      · exact ((hreached d).mp hd).step hi
  have hlen : s.out.directories = (rootIno :: s.taken.flatMap (subdirs dev)).length := by
    rw [h.counted.directories, List.length_cons, Nat.add_comm]
    rfl
  rw [hlen, length_eq_ncard_iff hmem, List.nodup_cons, namedOnce_iff_nodup hnodup hreached,
    and_comm]
  refine and_congr_right fun _ => ?_
  simp only [List.mem_flatMap, not_exists, not_and, hreached]

/-- The files counted are the entries that name one. -/
theorem files_eq_ncard_iff (h : InOrder dev total stack s)
    (hnodup : s.taken.Nodup) (hreached : ∀ d, d ∈ s.taken ↔ Reachable dev d) :
    s.out.files = {f | ∃ d, Reachable dev d ∧ f ∈ files dev d}.ncard ↔
      NamedOnce (files dev) (Reachable dev) := by
  have hmem : ∀ x, x ∈ {f | ∃ d, Reachable dev d ∧ f ∈ files dev d} ↔
      x ∈ s.taken.flatMap (files dev) := by
    intro x
    simp only [Set.mem_ofPred_eq, List.mem_flatMap, hreached]
  have hlen : s.out.files = (s.taken.flatMap (files dev)).length := by
    rw [h.counted.files]
    exact Nat.zero_add _
  rw [hlen, length_eq_ncard_iff hmem, namedOnce_iff_nodup hnodup hreached]

end End

/-! ## The whole check -/

/-- The walk from the root ends, in order. -/
theorem checkTree_returns {total fuel : ℕ} (hstatfs : dev.statfs = .ok total) (hpos : 0 < total)
    (hcap : total ≤ EXT4B_CHECK_MAX_INODES) (hcalloc : ∀ n, dev.calloc n = true)
    (hrealloc : ∀ n, dev.realloc n = true) (hfuel : total + 1 < fuel) :
    ∃ stack s, checkTree dev fuel = some ⟨none, s.out, s.taken⟩ ∧ InOrder dev total stack s ∧
      s.stack.items = [] := by
  obtain ⟨stack, hpush, hitems⟩ := stackPush_eq_some hrealloc ⟨[], 0⟩ rootIno
  have hstart : InOrder dev total stack (startWalk total stack) := by
    refine ⟨count_mark .., fun i hi => ?_, ?_, .refl (by simp [startWalk])⟩
    · rw [seen_startWalk]
      rw [inRange, decide_eq_true_eq] at hi
      simp only [startWalk, hitems, List.append_nil, List.mem_singleton]
      omega
    · simp only [startWalk, hitems]
      exact Explored.start
  obtain ⟨s, hwalk, hs, hend⟩ := walkTree_inOrder hrealloc hstart hfuel
  refine ⟨stack, s, ?_, hs, hend⟩
  unfold checkTree
  rw [hstatfs]
  dsimp only
  rw [if_neg (by omega), if_neg (by omega), hcalloc, if_neg (by simp), hpush]
  dsimp only
  rw [hwalk]
  rfl

/-- **The check of the tree.** It ends, whatever the volume holds; and it reports what is there
    exactly where no directory and no file is named twice. -/
theorem treeChecked_iff {total fuel : ℕ} (hstatfs : dev.statfs = .ok total) (hpos : 0 < total)
    (hcap : total ≤ EXT4B_CHECK_MAX_INODES) (hcalloc : ∀ n, dev.calloc n = true)
    (hrealloc : ∀ n, dev.realloc n = true) (hfuel : total + 1 < fuel) :
    ∃ c, checkTree dev fuel = some c ∧ (TreeChecked dev c ↔ EachOnce dev total) := by
  obtain ⟨stack, s, heq, hs, hend⟩ :=
    checkTree_returns dev hstatfs hpos hcap hcalloc hrealloc hfuel
  have hexplored := hs.explored
  rw [hend] at hexplored
  have hnodup : s.taken.Nodup := hexplored.nodup
  refine ⟨_, heq, fun hchecked => ?_, fun honce => ?_⟩
  · have hdirs := (directories_eq_ncard_iff hs hnodup hchecked.covers).mp hchecked.directories
    refine ⟨hdirs.1, hdirs.2, fun d hd i hi => ?_,
      (files_eq_ncard_iff hs hnodup hchecked.covers).mp hchecked.files⟩
    -- a directory that was taken is the root or has its bit in the set
    have htaken := (hchecked.covers i).mpr (hd.step hi)
    rcases List.mem_cons.mp (reaches_walked ((hexplored.mem_taken_iff i).mp htaken)) with
      rfl | hrange
    · exact absurd hi (hdirs.2 d hd)
    · have hle := (List.mem_range'_1.mp hrange).2
      omega
  · have hreached := mem_taken_iff hs hend honce.inRange
    refine ⟨rfl, hnodup, hreached,
      (directories_eq_ncard_iff hs hnodup hreached).mpr ⟨honce.subdirs, honce.root⟩,
      (files_eq_ncard_iff hs hnodup hreached).mpr honce.files, ?_⟩
    exact (problems_eq_zero_iff hcap hs hend).trans (and_iff_left honce.inRange)

/-! ## A file with two names -/

/-- A volume whose root holds one file, under these names. -/
def oneFile (names : List Name) : Device where
  statfs := .ok 12
  getattr i :=
    if i = rootIno then .ok ⟨some .dir, 2⟩
    else if i = 11 then .ok ⟨some .file, names.length⟩
    else .error 22
  readdir i :=
    if i = rootIno then (names.map fun name => ⟨name, 11, some .file⟩, none) else ([], some 20)
  strerror _ := "not a directory"
  calloc _ := true
  realloc _ := true

theorem listed_oneFile {names : List Name} {d : ℕ} (hd : d ≠ rootIno) :
    listed (oneFile names) d = [] := by
  simp only [listed, oneFile, if_neg hd]
  split <;> rfl

/-- **One name**: the check reports what is there. -/
theorem treeChecked_oneName :
    ∃ c, checkTree (oneFile [[0x61]]) 14 = some c ∧ TreeChecked (oneFile [[0x61]]) c := by
  obtain ⟨c, hc, hiff⟩ := @treeChecked_iff (oneFile [[0x61]]) 12 14 rfl (by decide) (by decide)
    (fun _ => rfl) (fun _ => rfl) (by decide)
  have hsubdirs : ∀ d, subdirs (oneFile [[0x61]]) d = [] := by
    intro d
    by_cases hd : d = rootIno
    · subst hd
      decide
    · rw [subdirs, listed_oneFile hd, List.filterMap_nil]
  have hroot : ∀ d, Reachable (oneFile [[0x61]]) d → d = rootIno := by
    intro d hd
    rcases hd.root_or_succ with heq | ⟨e, -, he⟩
    · exact heq
    · rw [hsubdirs] at he
      exact absurd he List.not_mem_nil
  refine ⟨c, hc, hiff.mpr ⟨⟨fun d _ => ?_, fun d e _ _ _ => ?_⟩, fun d _ => ?_, fun d _ i hi => ?_,
    ⟨fun d hd => ?_, fun d e hd he hne => ?_⟩⟩⟩
  · rw [hsubdirs]
    exact List.nodup_nil
  · rw [hsubdirs]
    exact List.disjoint_nil_left _
  · rw [hsubdirs]
    exact List.not_mem_nil
  · rw [hsubdirs] at hi
    exact absurd hi List.not_mem_nil
  · rw [hroot d hd]
    decide
  · exact absurd ((hroot d hd).trans (hroot e he).symm) hne

/-- **Two names** are counted as two files. -/
theorem checkTree_twoNames :
    ∃ c, checkTree (oneFile [[0x61], [0x62]]) 14 = some c ∧ c.out.problems = 0 ∧
      c.out.files = 2 ∧ ¬ TreeChecked (oneFile [[0x61], [0x62]]) c := by
  have hrun : (checkTree (oneFile [[0x61], [0x62]]) 14).map
      (fun c => (c.out.problems, c.out.files)) = some (0, 2) := by decide +kernel
  obtain ⟨c, hc, hout⟩ := Option.map_eq_some_iff.mp hrun
  obtain ⟨hproblems, hfiles⟩ := Prod.mk.inj hout
  refine ⟨c, hc, hproblems, hfiles, fun hchecked => ?_⟩
  have hset : {f | ∃ d, Reachable (oneFile [[0x61], [0x62]]) d ∧
      f ∈ files (oneFile [[0x61], [0x62]]) d} = {11} := by
    have hroot : files (oneFile [[0x61], [0x62]]) rootIno = [11, 11] := by decide
    ext f
    simp only [Set.mem_ofPred_eq, Set.mem_singleton_iff]
    constructor
    · rintro ⟨d, -, hf⟩
      by_cases hd : d = rootIno
      · subst hd
        simpa [hroot] using hf
      · rw [files, listed_oneFile hd, List.filterMap_nil] at hf
        exact absurd hf List.not_mem_nil
    · rintro rfl
      exact ⟨rootIno, Reaches.refl, by simp [hroot]⟩
  have hcard := hchecked.files
  rw [hset, Set.ncard_singleton, hfiles] at hcard
  exact absurd hcard (by decide)

end Ext4b.Check
