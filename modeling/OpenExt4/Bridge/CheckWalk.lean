import OpenExt4.Bridge.CheckTree

set_option autoImplicit false

/-! # What the check of the tree finds

The tree as the calls show it (the directories and files that entries name, from the root on), and
the walk of `ext4b_check_tree` over it: what one entry adds to the report, what a directory adds,
and from there what the whole run reports. -/

namespace Ext4b.Check

open Worklist

variable (dev : Device)

/-! ## The tree -/

/-- The attributes of the inode an entry names, if it can be read and has links. -/
def liveAttrs (e : Entry) : Option Attrs :=
  if isDots e ∨ e.inode = 0 then none
  else match dev.getattr e.inode with
    | .ok a => if a.linkCount = 0 then none else some a
    | .error _ => none

/-- The directory an entry names. -/
def subdirOf (e : Entry) : Option ℕ :=
  (liveAttrs dev e).bind fun a => if a.type = some .dir then some e.inode else none

/-- The file an entry names: whatever is not a directory. -/
def fileOf (e : Entry) : Option ℕ :=
  (liveAttrs dev e).bind fun a => if a.type = some .dir then none else some e.inode

/-- The entries that can be read of a directory: none if its inode cannot be read. -/
def listed (d : ℕ) : List Entry :=
  match dev.getattr d with
  | .ok _ => (dev.readdir d).1
  | .error _ => []

def subdirs (d : ℕ) : List ℕ := (listed dev d).filterMap (subdirOf dev)

def files (d : ℕ) : List ℕ := (listed dev d).filterMap (fileOf dev)

/-- A directory of the tree. -/
abbrev Reachable (d : ℕ) : Prop := Reaches (subdirs dev) rootIno d

/-- An entry is `.` or `..`, or it names a readable inode with links and of the recorded type. -/
def EntrySound (e : Entry) : Prop :=
  isDots e ∨ ∃ a, liveAttrs dev e = some a ∧ (e.type = none ∨ e.type = a.type)

/-! ## What the report counts -/

/-- The report `out` with the set `v` became `out'` with `v'` when entries were seen that name the
    directories `dirs` and the files `fs` and are all right if `sound`. -/
structure Counted (out : Result) (v : InodeSet) (out' : Result) (v' : InodeSet) (dirs fs : List ℕ)
    (sound : Prop) : Prop where
  directories : out'.directories = out.directories + dirs.length
  files : out'.files = out.files + fs.length
  count : v'.count = v.count
  met : ∀ i, seen v' i = true ↔ seen v i = true ∨ i ∈ dirs
  problems : out'.problems = 0 ↔
    out.problems = 0 ∧ sound ∧ dirs.Nodup ∧ ∀ i ∈ dirs, ¬ seen v i = true

section Counted

variable {dev} {out out' out'' : Result} {v v' v'' : InodeSet} {dirs dirs' fs fs' : List ℕ}
  {sound sound' : Prop}

theorem Counted.refl (hsound : sound) : Counted out v out v [] [] sound where
  directories := rfl
  files := rfl
  count := rfl
  met := by simp
  problems := by simp [hsound]

theorem Counted.problem (text : String) (hsound : ¬ sound) :
    Counted out v (problem out text) v [] [] sound where
  directories := rfl
  files := rfl
  count := rfl
  met := by simp
  problems := by simp [hsound]

theorem Counted.trans (h : Counted out v out' v' dirs fs sound)
    (h' : Counted out' v' out'' v'' dirs' fs' sound') :
    Counted out v out'' v'' (dirs ++ dirs') (fs ++ fs') (sound ∧ sound') where
  directories := by
    rw [h'.directories, h.directories, List.length_append, Nat.add_assoc]
  files := by
    rw [h'.files, h.files, List.length_append, Nat.add_assoc]
  count := h'.count.trans h.count
  met := by
    intro i
    rw [h'.met, h.met, List.mem_append, or_assoc]
  problems := by
    have hnew : (∀ i ∈ dirs', ¬ seen v' i = true) ↔
        (∀ i ∈ dirs', ¬ seen v i = true) ∧ List.Disjoint dirs dirs' := by
      constructor
      · intro hall
        refine ⟨fun i hi hseen => hall i hi ((h.met i).mpr (.inl hseen)), fun i hold hi => ?_⟩
        exact hall i hi ((h.met i).mpr (.inr hold))
      · rintro ⟨hunseen, hdisj⟩ i hi hseen
        rcases (h.met i).mp hseen with hold | hnamed
        · exact hunseen i hi hold
        · exact hdisj hnamed hi
    have hboth : (∀ i ∈ dirs ++ dirs', ¬ seen v i = true) ↔
        (∀ i ∈ dirs, ¬ seen v i = true) ∧ ∀ i ∈ dirs', ¬ seen v i = true := by
      simp only [List.mem_append, or_imp, forall_and]
    rw [h'.problems, h.problems, hnew, List.nodup_append', hboth]
    tauto

theorem Counted.imp_iff {q : Prop} (h : Counted out v out' v' dirs fs sound)
    (hiff : sound ↔ q) : Counted out v out' v' dirs fs q := by
  obtain rfl := propext hiff
  exact h

end Counted

/-! ## One entry -/

/-- The context when the recorded type has been compared. -/
theorem onEntry_of_live {w : WalkCtx} {e : Entry} {a : Attrs} (ha : liveAttrs dev e = some a) :
    ∃ out, Counted w.out w.visited out w.visited [] [] (e.type = none ∨ e.type = a.type) ∧
      onEntry dev w e =
        if a.type = some .dir then onSubdir dev { w with out := out } e.inode
        else { w with out := { out with files := out.files + 1 } } := by
  unfold liveAttrs at ha
  split at ha
  · exact absurd ha (by simp)
  next hdots =>
  obtain ⟨hdots, hzero⟩ := not_or.mp hdots
  cases hattr : dev.getattr e.inode with
  | error r => simp [hattr] at ha
  | ok b =>
      rw [hattr] at ha
      dsimp only at ha
      split at ha
      · exact absurd ha (by simp)
      next hlinks =>
      obtain rfl : b = a := by simpa using ha
      rw [onEntry, if_neg hdots, if_neg hzero, hattr]
      dsimp only
      rw [if_neg hlinks]
      by_cases htype : e.type ≠ none ∧ e.type ≠ b.type
      · rw [if_pos htype]
        exact ⟨_, .problem _ (not_or.mpr htype), rfl⟩
      · rw [if_neg htype]
        exact ⟨w.out, .refl (by tauto), rfl⟩

/-- An entry that names no inode with links adds a problem, unless it is `.` or `..`. -/
theorem onEntry_of_dead {w : WalkCtx} {e : Entry} (ha : liveAttrs dev e = none) :
    ∃ out, Counted w.out w.visited out w.visited [] [] (isDots e) ∧
      onEntry dev w e = { w with out := out } := by
  by_cases hdots : isDots e
  · exact ⟨w.out, .refl hdots, if_pos hdots⟩
  · rw [onEntry, if_neg hdots]
    by_cases hzero : e.inode = 0
    · rw [if_pos hzero]
      exact ⟨_, .problem _ hdots, rfl⟩
    · rw [if_neg hzero]
      rw [liveAttrs, if_neg (not_or.mpr ⟨hdots, hzero⟩)] at ha
      cases hattr : dev.getattr e.inode with
      | error r => exact ⟨_, .problem _ hdots, rfl⟩
      | ok a =>
          rw [hattr] at ha
          dsimp only at ha ⊢
          by_cases hlinks : a.linkCount = 0
          · rw [if_pos hlinks]
            exact ⟨_, .problem _ hdots, rfl⟩
          · rw [if_neg hlinks] at ha
            exact absurd ha (by simp)

/-- A directory is counted, and is a problem if it was met before. -/
theorem onSubdir_counted (w : WalkCtx) (i : ℕ) :
    Counted w.out w.visited (onSubdir dev w i).out (onSubdir dev w i).visited [i] [] True := by
  unfold onSubdir
  by_cases hseen : seen w.visited i = true
  · simp only [hseen, if_true]
    refine ⟨rfl, rfl, rfl, fun j => ?_, ?_⟩
    · simp only [List.mem_singleton]
      exact ⟨.inl, fun h => h.elim id fun heq => heq ▸ hseen⟩
    · simp [hseen]
  · simp only [hseen]
    cases stackPush dev w.stack i <;>
    · refine ⟨rfl, rfl, count_mark .., fun j => ?_, ?_⟩
      · simp [seen_mark, or_comm]
      · simp [hseen]

/-- **One entry** adds the directory or the file it names, and a problem unless it is sound and its
    directory was not met before. -/
theorem onEntry_counted (w : WalkCtx) (e : Entry) :
    Counted w.out w.visited (onEntry dev w e).out (onEntry dev w e).visited
      (subdirOf dev e).toList (fileOf dev e).toList (EntrySound dev e) := by
  cases ha : liveAttrs dev e with
  | none =>
      obtain ⟨out, hcounted, heq⟩ := onEntry_of_dead dev (w := w) ha
      rw [heq, subdirOf, fileOf, ha]
      refine hcounted.imp_iff ⟨.inl, ?_⟩
      rintro (hdots | ⟨a, hlive, -⟩)
      · exact hdots
      · exact absurd (ha.symm.trans hlive) (by simp)
  | some a =>
      obtain ⟨out, hcounted, heq⟩ := onEntry_of_live dev (w := w) ha
      have hsound : EntrySound dev e ↔ (e.type = none ∨ e.type = a.type) := by
        constructor
        · rintro (hdots | ⟨b, hlive, htype⟩)
          · rw [liveAttrs, if_pos (.inl hdots)] at ha
            exact absurd ha (by simp)
          · obtain rfl : a = b := Option.some.inj (ha.symm.trans hlive)
            exact htype
        · exact fun htype => .inr ⟨a, ha, htype⟩
      rw [heq, subdirOf, fileOf, ha]
      by_cases hdir : a.type = some .dir
      · rw [if_pos hdir]
        simp only [Option.bind_some, if_pos hdir, Option.toList_some, Option.toList_none]
        have hsub := hcounted.trans (onSubdir_counted dev { w with out := out } e.inode)
        exact hsub.imp_iff (by rw [hsound, and_true])
      · rw [if_neg hdir]
        simp only [Option.bind_some, if_neg hdir, Option.toList_some, Option.toList_none]
        have hfile : Counted out w.visited { out with files := out.files + 1 } w.visited []
            [e.inode] True := ⟨rfl, rfl, rfl, by simp, by simp⟩
        exact (hcounted.trans hfile).imp_iff (by rw [hsound, and_true])

/-- What the entries of a list add. -/
theorem foldl_onEntry_counted (es : List Entry) (w : WalkCtx) :
    Counted w.out w.visited (es.foldl (onEntry dev) w).out (es.foldl (onEntry dev) w).visited
      (es.filterMap (subdirOf dev)) (es.filterMap (fileOf dev)) (∀ e ∈ es, EntrySound dev e) := by
  induction es generalizing w with
  | nil => exact .refl (by simp)
  | cons e es ih =>
      have hboth := (onEntry_counted dev w e).trans (ih (onEntry dev w e))
      have hcons : ∀ f : Entry → Option ℕ,
          (e :: es).filterMap f = (f e).toList ++ es.filterMap f := by
        intro f
        rw [List.filterMap_cons]
        cases f e <;> rfl
      rw [List.foldl_cons, hcons, hcons]
      exact hboth.imp_iff List.forall_mem_cons.symm

/-! ## The directories still to take -/

/-- An inode the set has a bit for. -/
def inRange (total i : ℕ) : Bool := decide (i ≠ 0 ∧ i ≤ total)

/-- The subdirectories the walk goes on to. -/
def walked (total d : ℕ) : List ℕ := (subdirs dev d).filter (inRange total)

/-- Within a directory: the inodes that were met are those on the list and those that were taken,
    no allocation failed, and of the last directory taken the entries `es` are left. -/
structure Exploring (total : ℕ) (taken : List ℕ) (es : List Entry) (w : WalkCtx) : Prop where
  count : w.visited.count = total
  met : ∀ i, inRange total i = true → (seen w.visited i = true ↔ i ∈ w.stack.items ++ taken)
  memory : w.outOfMemory = false
  explored : Explored (walked dev total) rootIno w.stack.items taken
    ((es.filterMap (subdirOf dev)).filter (inRange total))

/-- What is out of range counts as met. -/
theorem seen_of_not_inRange {v : InodeSet} {i : ℕ} (h : inRange v.count i = false) :
    seen v i = true := by
  have hout : i = 0 ∨ v.count < i := by
    simp only [inRange, decide_eq_false_iff_not] at h
    omega
  rw [seen, if_pos hout]

section Memory

variable {dev} (hmemory : ∀ n, dev.realloc n = true)

include hmemory

theorem stackPush_eq_some (s : InodeStack) (i : ℕ) :
    ∃ s', stackPush dev s i = some s' ∧ s'.items = i :: s.items := by
  unfold stackPush
  simp only [hmemory, if_true]
  split_ifs
  · exact ⟨_, rfl, rfl⟩
  · exact ⟨_, rfl, rfl⟩
  · exact ⟨_, rfl, rfl⟩

/-- A directory that is in range and was not met goes onto the list; any other is passed over. -/
theorem onSubdir_explores {total : ℕ} {taken : List ℕ} {es : List Entry} {w : WalkCtx} {i : ℕ}
    (hcount : w.visited.count = total)
    (hmet : ∀ i, inRange total i = true → (seen w.visited i = true ↔ i ∈ w.stack.items ++ taken))
    (hmem : w.outOfMemory = false)
    (hexplored : Explored (walked dev total) rootIno w.stack.items taken
      (([i].filter (inRange total)) ++ (es.filterMap (subdirOf dev)).filter (inRange total))) :
    Exploring dev total taken es (onSubdir dev w i) := by
  subst hcount
  by_cases hrange : inRange w.visited.count i = true
  · rw [List.filter_cons_of_pos hrange] at hexplored
    by_cases hseen : seen w.visited i = true
    · have hold := (hmet i hrange).mp hseen
      unfold onSubdir
      simp only [hseen, if_true]
      exact ⟨rfl, hmet, hmem, hexplored.pass hold⟩
    · have hnew : i ∉ w.stack.items ++ taken := fun h => hseen ((hmet i hrange).mpr h)
      obtain ⟨s', hpush, hitems⟩ := stackPush_eq_some hmemory w.stack i
      unfold onSubdir
      simp only [hseen, hpush, Bool.false_eq_true, if_false]
      refine ⟨count_mark .., fun j hj => ?_, hmem, ?_⟩
      · simp only [seen_mark, hitems, Bool.or_eq_true, decide_eq_true_eq, hmet j hj,
          List.cons_append, List.mem_cons]
      · rw [hitems]
        exact hexplored.push hnew
  · rw [List.filter_cons_of_neg hrange] at hexplored
    have hseen := seen_of_not_inRange (Bool.eq_false_iff.mpr hrange)
    unfold onSubdir
    simp only [hseen, if_true]
    exact ⟨rfl, hmet, hmem, hexplored⟩

/-- One entry keeps the walk in order. -/
theorem onEntry_explores {total : ℕ} {taken : List ℕ} {e : Entry} {es : List Entry} {w : WalkCtx}
    (h : Exploring dev total taken (e :: es) w) :
    Exploring dev total taken es (onEntry dev w e) := by
  have hexplored := h.explored
  cases ha : liveAttrs dev e with
  | none =>
      obtain ⟨out, -, heq⟩ := onEntry_of_dead dev (w := w) ha
      rw [List.filterMap_cons_none (by rw [subdirOf, ha]; rfl)] at hexplored
      rw [heq]
      exact ⟨h.count, h.met, h.memory, hexplored⟩
  | some a =>
      obtain ⟨out, -, heq⟩ := onEntry_of_live dev (w := w) ha
      rw [heq]
      by_cases hdir : a.type = some .dir
      · have hsub : subdirOf dev e = some e.inode := by
          rw [subdirOf, ha]
          exact if_pos hdir
        rw [List.filterMap_cons_some hsub, ← List.singleton_append, List.filter_append] at hexplored
        rw [if_pos hdir]
        exact onSubdir_explores hmemory h.count h.met h.memory hexplored
      · have hnone : subdirOf dev e = none := by
          rw [subdirOf, ha]
          exact if_neg hdir
        rw [List.filterMap_cons_none hnone] at hexplored
        rw [if_neg hdir]
        exact ⟨h.count, h.met, h.memory, hexplored⟩

theorem foldl_onEntry_explores {total : ℕ} {taken : List ℕ} {es : List Entry} {w : WalkCtx}
    (h : Exploring dev total taken es w) :
    Exploring dev total taken [] (es.foldl (onEntry dev) w) := by
  induction es generalizing w with
  | nil => exact h
  | cons e es ih => exact ih (onEntry_explores hmemory h)

end Memory

/-- The subdirectories of a directory are counted apart. -/
theorem subdirs_onEntry (w : WalkCtx) (e : Entry) :
    (onEntry dev w e).subdirs = w.subdirs + (subdirOf dev e).toList.length := by
  cases ha : liveAttrs dev e with
  | none =>
      obtain ⟨out, -, heq⟩ := onEntry_of_dead dev (w := w) ha
      rw [heq, subdirOf, ha]
      rfl
  | some a =>
      obtain ⟨out, -, heq⟩ := onEntry_of_live dev (w := w) ha
      rw [heq, subdirOf, ha]
      by_cases hdir : a.type = some .dir
      · simp only [Option.bind_some, if_pos hdir, Option.toList_some, onSubdir]
        split_ifs
        · rfl
        · cases stackPush dev w.stack e.inode <;> rfl
      · simp [hdir]

theorem subdirs_foldl (es : List Entry) (w : WalkCtx) :
    (es.foldl (onEntry dev) w).subdirs = w.subdirs + (es.filterMap (subdirOf dev)).length := by
  induction es generalizing w with
  | nil => rfl
  | cons e es ih =>
      rw [List.foldl_cons, ih, subdirs_onEntry, Nat.add_assoc, List.filterMap_cons]
      cases subdirOf dev e with
      | none => simp
      | some i => simp [Nat.add_comm]

/-! ## One directory -/

/-- A directory can be read, and read through; its entries are sound; its links agree. -/
structure DirSound (d : ℕ) : Prop where
  links : ∃ da, dev.getattr d = .ok da ∧
    (da.linkCount ≤ 1 ∨ da.linkCount = ((subdirs dev d).length + 2) % 2 ^ 32)
  through : (dev.readdir d).2 = none
  entries : ∀ e ∈ listed dev d, EntrySound dev e

theorem checkLinks_counted (out : Result) (v : InodeSet) (dir linkCount n : ℕ) :
    Counted out v (checkLinks out dir linkCount n) v [] []
      (linkCount ≤ 1 ∨ linkCount = (n + 2) % 2 ^ 32) := by
  by_cases hlinks : linkCount ≠ (n + 2) % 2 ^ 32 ∧ 1 < linkCount
  · rw [checkLinks, if_pos hlinks]
    exact .problem _ (by omega)
  · rw [checkLinks, if_neg hlinks]
    exact .refl (by omega)

/-- The walk between two directories: everything the report says, it says of those taken. -/
structure InOrder (total : ℕ) (stack : InodeStack) (s : Walk) : Prop where
  count : s.visited.count = total
  met : ∀ i, inRange total i = true → (seen s.visited i = true ↔ i ∈ s.stack.items ++ s.taken)
  explored : Explored (walked dev total) rootIno s.stack.items s.taken []
  counted : Counted (startWalk total stack).out (startWalk total stack).visited s.out s.visited
    (s.taken.flatMap (subdirs dev)) (s.taken.flatMap (files dev)) (∀ d ∈ s.taken, DirSound dev d)

section Memory

variable {dev} (hmemory : ∀ n, dev.realloc n = true)

include hmemory

/-- What the entries of `dir` make of the walk that has taken it. -/
theorem entries_explore {total dir : ℕ} {stack : InodeStack} {rest : List ℕ} {s : Walk}
    {es : List Entry} (h : InOrder dev total stack s) (hitems : s.stack.items = dir :: rest)
    (hes : listed dev dir = es) :
    Exploring dev total (s.taken ++ [dir]) []
      (es.foldl (onEntry dev)
        ⟨s.out, { s.stack with items := rest }, s.visited, dir, 0, false⟩) := by
  have htake := h.explored
  rw [hitems] at htake
  refine foldl_onEntry_explores hmemory ⟨h.count, fun i hi => ?_, rfl, ?_⟩
  · rw [h.met i hi, hitems]
    simp only [List.mem_append, List.mem_cons, List.not_mem_nil, or_false]
    tauto
  · have hsub : walked dev total dir = (es.filterMap (subdirOf dev)).filter (inRange total) := by
      rw [walked, subdirs, hes]
    rw [← hsub]
    exact htake.take

/-- **One directory** is taken off the list, its entries are seen, and the walk is in order. -/
theorem checkDir_inOrder {total dir : ℕ} {stack : InodeStack} {rest : List ℕ} {s : Walk}
    (h : InOrder dev total stack s) (hitems : s.stack.items = dir :: rest) :
    ∃ s', checkDir dev
        { s with stack := { s.stack with items := rest }, taken := s.taken ++ [dir] } dir
          = (none, s') ∧
      s'.taken = s.taken ++ [dir] ∧ InOrder dev total stack s' := by
  have hcounted : ∀ {out : Result} {v : InodeSet},
      Counted s.out s.visited out v (subdirs dev dir) (files dev dir) (DirSound dev dir) →
      Counted (startWalk total stack).out (startWalk total stack).visited out v
        ((s.taken ++ [dir]).flatMap (subdirs dev)) ((s.taken ++ [dir]).flatMap (files dev))
        (∀ d ∈ s.taken ++ [dir], DirSound dev d) := by
    intro out v hdir
    have hall := h.counted.trans hdir
    rw [List.flatMap_append, List.flatMap_append, List.flatMap_singleton, List.flatMap_singleton]
    refine hall.imp_iff ?_
    simp only [List.mem_append, List.mem_singleton, or_imp, forall_and, forall_eq]
  unfold checkDir
  cases hattr : dev.getattr dir with
  | error r =>
      have hlisted : listed dev dir = [] := by rw [listed, hattr]
      have hexploring := entries_explore hmemory h hitems hlisted
      refine ⟨_, rfl, rfl, hexploring.count, hexploring.met, hexploring.explored, hcounted ?_⟩
      rw [subdirs, files, hlisted]
      refine .problem _ fun hsound => ?_
      obtain ⟨da, hda, -⟩ := hsound.links
      exact absurd (hattr.symm.trans hda) (by simp)
  | ok da =>
      have hlisted : listed dev dir = (dev.readdir dir).1 := by rw [listed, hattr]
      have hexploring := entries_explore hmemory h hitems hlisted
      have hentries := foldl_onEntry_counted dev (dev.readdir dir).1
        ⟨s.out, { s.stack with items := rest }, s.visited, dir, 0, false⟩
      have hsubdirs := subdirs_foldl dev (dev.readdir dir).1
        ⟨s.out, { s.stack with items := rest }, s.visited, dir, 0, false⟩
      rw [← hlisted] at hentries hsubdirs hexploring
      dsimp only
      rw [← hlisted]
      cases hend : (dev.readdir dir).2 with
      | some r =>
          refine ⟨_, rfl, rfl, hexploring.count, hexploring.met, hexploring.explored,
            hcounted ?_⟩
          have hfail := hentries.trans
            (.problem ("directory inode " ++ toString dir ++ " cannot be read through ("
              ++ dev.strerror r ++ ")") id : Counted _ _ (problem _ _) _ [] [] False)
          rw [List.append_nil, List.append_nil] at hfail
          refine hfail.imp_iff ⟨fun hfalse => hfalse.2.elim, fun hsound => ?_⟩
          exact absurd (hend.symm.trans hsound.through) (by simp)
      | none =>
          dsimp only
          rw [if_neg (by rw [hexploring.memory]; exact Bool.false_ne_true)]
          refine ⟨_, rfl, rfl, hexploring.count, hexploring.met, hexploring.explored,
            hcounted ?_⟩
          have hlinks := hentries.trans (checkLinks_counted _ _ dir da.linkCount
            (subdirs dev dir).length)
          rw [List.append_nil, List.append_nil] at hlinks
          rw [hsubdirs, Nat.zero_add]
          refine hlinks.imp_iff ⟨fun hsound => ?_, fun hsound => ?_⟩
          · exact ⟨⟨da, hattr, hsound.2⟩, hend, hsound.1⟩
          · obtain ⟨da', hda', hlinks'⟩ := hsound.links
            obtain rfl : da = da' := by simpa [hattr] using hda'
            exact ⟨hsound.entries, hlinks'⟩

omit hmemory in
/-- Nodes the walk goes to, from the root. -/
theorem reaches_walked {total i : ℕ} (h : Reaches (walked dev total) rootIno i) :
    i ∈ rootIno :: List.range' 1 total := by
  rcases h.root_or_succ with rfl | ⟨d, -, hi⟩
  · exact List.mem_cons_self
  · have hrange := (List.mem_filter.mp hi).2
    rw [inRange, decide_eq_true_eq] at hrange
    exact List.mem_cons_of_mem _ (List.mem_range'_1.mpr (by omega))

/-- **The loop ends**, having taken one directory more each turn. -/
theorem walkTree_inOrder {total : ℕ} {stack : InodeStack} :
    ∀ {fuel : ℕ} {s : Walk}, InOrder dev total stack s → total + 1 < fuel + s.taken.length →
      ∃ s', walkTree dev fuel s = some (none, s') ∧ InOrder dev total stack s' ∧
        s'.stack.items = [] := by
  intro fuel
  induction fuel with
  | zero =>
      intro s h hfuel
      have hle := h.explored.length_le fun i hi => reaches_walked hi
      rw [List.length_cons, List.length_range'] at hle
      omega
  | succ fuel ih =>
      intro s h hfuel
      unfold walkTree
      cases hitems : s.stack.items with
      | nil => exact ⟨s, rfl, h, hitems⟩
      | cons dir rest =>
          obtain ⟨s', heq, htaken, hs'⟩ := checkDir_inOrder hmemory h hitems
          dsimp only
          rw [heq]
          refine ih hs' ?_
          rw [htaken, List.length_append, List.length_singleton]
          omega

end Memory

end Ext4b.Check
