import OpenExt4.Lib.Chain
import OpenExt4.Bridge.Cleanup

set_option autoImplicit false

/-! # The orphan list

The list of inodes deleted while open as a chain through the deletion times, and what pushing an
inode on it, taking the head off and closing the list over an inode do to it. -/

namespace Ext4b

open Chain

/-! ## Orphans and their list -/

/-- An allocated inode of the table without links. Reserved inodes are not meant. -/
def Volume.Orphan (v : Volume) (i : ℕ) : Prop :=
  orphanPlausible v i = true ∧ (v.inodes i).Orphaned

/-- **The list is right**: from the head of the superblock on, the deletion times lead once to each
    orphan, to nothing else, and to 0. -/
def OrphanList (v : Volume) : Prop :=
  ∃ l, IsChain (fun i => (v.inodes i).delTime) v.lastOrphan l ∧ l.Nodup ∧ ∀ i, i ∈ l ↔ v.Orphan i

/-- What an edit of the list for inode `c` may do: no other inode becomes or ceases to be an orphan,
    and the deletion time of an inode that is on no list before or after stays, unless the inode is
    allocated or freed. -/
structure Frame (v w : Volume) (c : ℕ) : Prop where
  others : ∀ i, i ≠ c → (w.Orphan i ↔ v.Orphan i)
  times : ∀ i, ¬ v.Orphan i → ¬ w.Orphan i → (w.inodes i).inUse = (v.inodes i).inUse →
    (w.inodes i).delTime = (v.inodes i).delTime

/-- The inode is the same to the list. -/
def Inode.Alike (d d' : Inode) : Prop :=
  d'.inUse = d.inUse ∧ d'.delTime = d.delTime ∧ (d'.linksCnt = 0 ↔ d.linksCnt = 0)

/-- All inodes but `c` are the same to the list. -/
structure AlikeOff (v w : Volume) (c : ℕ) : Prop where
  usable : ∀ i, orphanPlausible w i = orphanPlausible v i
  inodes : ∀ i, i ≠ c → (v.inodes i).Alike (w.inodes i)

/-- The list and the orphans are the same. -/
structure SameOrphans (v w : Volume) : Prop where
  lastOrphan : w.lastOrphan = v.lastOrphan
  orphans : ∀ i, w.Orphan i ↔ v.Orphan i
  times : ∀ i, (w.inodes i).inUse = (v.inodes i).inUse →
    (w.inodes i).delTime = (v.inodes i).delTime

theorem Inode.Alike.refl (d : Inode) : d.Alike d := ⟨rfl, rfl, Iff.rfl⟩

theorem Inode.Alike.trans {d d' d'' : Inode} (h : d.Alike d') (h' : d'.Alike d'') :
    d.Alike d'' :=
  ⟨h'.1.trans h.1, h'.2.1.trans h.2.1, h'.2.2.trans h.2.2⟩

theorem Inode.Alike.orphaned {d d' : Inode} (h : d.Alike d') : d'.Orphaned ↔ d.Orphaned := by
  unfold Inode.Orphaned
  rw [h.1, h.2.2]

section Edits

variable {v w : Volume} {c : ℕ}

theorem AlikeOff.refl (v : Volume) (c : ℕ) : AlikeOff v v c :=
  ⟨fun _ => rfl, fun _ _ => .refl _⟩

theorem AlikeOff.trans {x : Volume} (h : AlikeOff v w c) (h' : AlikeOff w x c) : AlikeOff v x c :=
  ⟨fun i => (h'.usable i).trans (h.usable i), fun i hi => (h.inodes i hi).trans (h'.inodes i hi)⟩

/-- An edit of `c` itself. -/
theorem AlikeOff.modify_self (f : Inode → Inode) : AlikeOff v (v.modify c f) c := by
  refine ⟨fun _ => rfl, fun i hi => ?_⟩
  rw [Volume.modify_of_ne _ _ _ hi]
  exact .refl _

/-- An edit that nothing sees. -/
theorem AlikeOff.modify {p : ℕ} {f : Inode → Inode} (hf : (v.inodes p).Alike (f (v.inodes p))) :
    AlikeOff v (v.modify p f) c := by
  refine ⟨fun _ => rfl, fun i _ => ?_⟩
  by_cases hi : i = p
  · subst hi
    rw [Volume.modify_self]
    exact hf
  · rw [Volume.modify_of_ne _ _ _ hi]
    exact .refl _

theorem AlikeOff.orphan (h : AlikeOff v w c) {i : ℕ} (hi : i ≠ c) : w.Orphan i ↔ v.Orphan i := by
  unfold Volume.Orphan
  rw [h.usable, (h.inodes i hi).orphaned]

theorem AlikeOff.frame (h : AlikeOff v w c)
    (hc : ¬ v.Orphan c → ¬ w.Orphan c → (w.inodes c).inUse = (v.inodes c).inUse →
      (w.inodes c).delTime = (v.inodes c).delTime) : Frame v w c := by
  refine ⟨fun i hi => h.orphan hi, fun i hv hw huse => ?_⟩
  by_cases hi : i = c
  · subst hi
    exact hc hv hw huse
  · exact (h.inodes i hi).2.1

/-- The inode is the same to the list, or was no orphan and is none. -/
theorem AlikeOff.same (h : AlikeOff v w c) (hlast : w.lastOrphan = v.lastOrphan)
    (hc : w.Orphan c ↔ v.Orphan c)
    (htime : (w.inodes c).inUse = (v.inodes c).inUse →
      (w.inodes c).delTime = (v.inodes c).delTime) : SameOrphans v w := by
  refine ⟨hlast, fun i => ?_, fun i huse => ?_⟩
  · by_cases hi : i = c
    · subst hi
      exact hc
    · exact h.orphan hi
  · by_cases hi : i = c
    · subst hi
      exact htime huse
    · exact (h.inodes i hi).2.1

theorem SameOrphans.refl (v : Volume) : SameOrphans v v :=
  ⟨rfl, fun _ => Iff.rfl, fun _ _ => rfl⟩

theorem SameOrphans.frame (h : SameOrphans v w) (c : ℕ) : Frame v w c :=
  ⟨fun i _ => h.orphans i, fun i _ _ => h.times i⟩

theorem Frame.refl (v : Volume) (c : ℕ) : Frame v v c := (SameOrphans.refl v).frame c

theorem OrphanList.same (hv : OrphanList v) (h : SameOrphans v w) : OrphanList w := by
  obtain ⟨l, hchain, hnodup, hmem⟩ := hv
  refine ⟨l, ?_, hnodup, fun i => (hmem i).trans (h.orphans i).symm⟩
  rw [h.lastOrphan]
  refine hchain.congr fun i hi => h.times i ?_
  have horphan := (hmem i).mp hi
  rw [horphan.2.1, ((h.orphans i).mpr horphan).2.1]

/-- **An inode is put in front of the list.** -/
theorem OrphanList.push (hv : OrphanList v) (h : AlikeOff v w c) (hnew : ¬ v.Orphan c)
    (hc : w.Orphan c) (hlast : w.lastOrphan = c)
    (hnext : (w.inodes c).delTime = v.lastOrphan) : OrphanList w := by
  obtain ⟨l, hchain, -, hmem⟩ := hv
  have hfresh : c ∉ l := fun hn => hnew ((hmem c).mp hn)
  have hpush : IsChain (fun i => (w.inodes i).delTime) c (c :: l) :=
    hchain.push (orphanPlausible_ne_zero hc.1) hnext fun j hj =>
      (h.inodes j fun heq => hfresh (heq ▸ hj)).2.1
  refine ⟨c :: l, hlast.symm ▸ hpush, hpush.nodup, fun i => ?_⟩
  rw [List.mem_cons]
  by_cases hi : i = c
  · subst hi
    exact iff_of_true (.inl rfl) hc
  · rw [h.orphan hi, ← hmem i]
    exact ⟨fun hor => hor.resolve_left hi, .inr⟩

/-- What follows an inode of the list is its deletion time. -/
theorem orphanNext_of_chain {i : ℕ} {l : List ℕ}
    (hchain : IsChain (fun i => (v.inodes i).delTime) ((v.inodes i).delTime) l)
    (hmem : ∀ j ∈ l, v.Orphan j) : orphanNext v i = (v.inodes i).delTime := by
  unfold orphanNext
  dsimp only
  cases l with
  | nil =>
      generalize (v.inodes i).delTime = n at hchain
      cases hchain
      exact ite_self _
  | cons j l =>
      obtain ⟨heq, -, -⟩ := hchain.head_eq
      rw [heq, if_pos (hmem j List.mem_cons_self).1]

/-- **The head is taken off.** -/
theorem OrphanList.pop (hv : OrphanList v) (hhead : v.lastOrphan ≠ 0)
    (h : AlikeOff v w v.lastOrphan) (hgone : ¬ w.Orphan v.lastOrphan)
    (hlast : w.lastOrphan = orphanNext v v.lastOrphan) : OrphanList w := by
  obtain ⟨l, hchain, hnodup, hmem⟩ := hv
  cases l with
  | nil =>
      generalize v.lastOrphan = n at hchain hhead
      cases hchain
      exact absurd rfl hhead
  | cons c l =>
      obtain ⟨hc, -, htail⟩ := hchain.head_eq
      have hnext := orphanNext_of_chain htail fun j hj => (hmem j).mp (List.mem_cons_of_mem _ hj)
      obtain ⟨hfresh, hnodup'⟩ := List.nodup_cons.mp hnodup
      rw [hc] at hlast h hgone
      rw [hnext] at hlast
      refine ⟨l, ?_, hnodup', fun i => ?_⟩
      · rw [hlast]
        exact htail.congr fun j hj => (h.inodes j fun heq => hfresh (heq ▸ hj)).2.1
      · by_cases hi : i = c
        · subst hi
          exact iff_of_false hfresh hgone
        · rw [h.orphan hi, ← hmem i, List.mem_cons]
          exact ⟨.inr, fun hor => hor.resolve_left hi⟩

/-- **The list is closed over an inode in its middle**: the one before it, `p`, leads to the one
    after it. -/
theorem OrphanList.unlink {p : ℕ} {a b : List ℕ}
    (hchain : IsChain (fun i => (v.inodes i).delTime) v.lastOrphan (a ++ p :: c :: b))
    (hmem : ∀ i, i ∈ a ++ p :: c :: b ↔ v.Orphan i) (h : AlikeOff (orphanSetNext v p
      (orphanNext v c)) w c) (hgone : ¬ w.Orphan c) (hlast : w.lastOrphan = v.lastOrphan) :
    OrphanList w := by
  have hnodup := hchain.nodup
  have hnotp : c ≠ p ∧ c ∉ a ++ b ∧ p ∉ a ++ b := by
    rw [List.nodup_append, List.nodup_cons, List.nodup_cons] at hnodup
    obtain ⟨-, ⟨hp, hc, -⟩, hdisjoint⟩ := hnodup
    refine ⟨fun heq => hp (heq ▸ List.mem_cons_self), fun hn => ?_, fun hn => ?_⟩
    · rcases List.mem_append.mp hn with ha | hb
      · exact hdisjoint c ha c (List.mem_cons_of_mem _ List.mem_cons_self) rfl
      · exact hc hb
    · rcases List.mem_append.mp hn with ha | hb
      · exact hdisjoint p ha p List.mem_cons_self rfl
      · exact hp (List.mem_cons_of_mem _ hb)
  obtain ⟨hcp, hcab, hpab⟩ := hnotp
  have hbehind : IsChain (fun i => (v.inodes i).delTime) ((v.inodes c).delTime) b := by
    have hsplit : a ++ p :: c :: b = (a ++ [p]) ++ c :: b := by
      rw [List.append_assoc, List.singleton_append]
    rw [hsplit] at hchain
    exact hchain.suffix
  have hnext := orphanNext_of_chain hbehind fun j hj => (hmem j).mp
    (List.mem_append_right _ (List.mem_cons_of_mem _ (List.mem_cons_of_mem _ hj)))
  rw [hnext] at h
  unfold orphanSetNext at h
  have hother : ∀ i, i ≠ c → i ≠ p → (v.inodes i).Alike (w.inodes i) := fun i hi hip => by
    have halike := h.inodes i hi
    rwa [Volume.modify_of_ne _ _ _ hip] at halike
  have hp := h.inodes p hcp.symm
  rw [Volume.modify_self] at hp
  have hclosed : IsChain (fun i => (w.inodes i).delTime) v.lastOrphan (a ++ p :: b) :=
    hchain.unlink hp.2.1 fun j hj =>
      (hother j (fun heq => hcab (heq ▸ hj)) fun heq => hpab (heq ▸ hj)).2.1
  refine ⟨a ++ p :: b, hlast.symm ▸ hclosed, hclosed.nodup, fun i => ?_⟩
  by_cases hi : i = c
  · subst hi
    refine iff_of_false (fun hn => ?_) hgone
    rcases List.mem_append.mp hn with ha | hpb
    · exact hcab (List.mem_append_left _ ha)
    · rcases List.mem_cons.mp hpb with heq | hb
      · exact hcp heq
      · exact hcab (List.mem_append_right _ hb)
  · have hsame : w.Orphan i ↔ v.Orphan i := by
      by_cases hip : i = p
      · subst hip
        unfold Volume.Orphan Inode.Orphaned
        rw [h.usable, hp.1, hp.2.2]
        rfl
      · unfold Volume.Orphan
        rw [h.usable, (hother i hi hip).orphaned]
        rfl
    rw [hsame, ← hmem i]
    simp only [List.mem_append, List.mem_cons, hi, false_or]

end Edits

/-! ## The walk of `orphan_del` -/

section Walk

variable {v : Volume} {c after : ℕ}

theorem delTime_setNext {p n i : ℕ} (hi : i ≠ p) :
    ((orphanSetNext v p n).inodes i).delTime = (v.inodes i).delTime := by
  unfold orphanSetNext
  rw [Volume.modify_of_ne _ _ _ hi]

/-- The walk finds the inode before `c` if it may go that far. -/
theorem closeOver_eq (after : ℕ) {a b : List ℕ} {head p fuel : ℕ}
    (hchain : IsChain (fun i => (v.inodes i).delTime) head (a ++ p :: c :: b))
    (husable : ∀ i ∈ a ++ [p], orphanPlausible v i = true) (hne : c ∉ a ++ [p])
    (hfuel : a.length < fuel) :
    closeOver (orphanSetNext v c 0) c after fuel head =
      orphanSetNext (orphanSetNext v c 0) p after := by
  induction a generalizing head fuel with
  | nil =>
      obtain ⟨rfl, hnz, htail⟩ := hchain.head_eq
      obtain ⟨fuel, rfl⟩ := Nat.exists_eq_add_one.mpr hfuel
      have hgo : ¬ (head = 0 ∨ orphanPlausible (orphanSetNext v c 0) head = false) := by
        rintro (hzero | hno)
        · exact hnz hzero
        · exact Bool.false_ne_true (hno.symm.trans (husable head List.mem_cons_self))
      have hcp : head ≠ c := fun heq => hne (heq ▸ List.mem_cons_self)
      unfold closeOver
      dsimp only
      rw [if_neg hgo, delTime_setNext hcp, if_pos htail.head_eq.1]
  | cons x a ih =>
      obtain ⟨rfl, hnz, htail⟩ := hchain.head_eq
      obtain ⟨fuel, rfl⟩ := Nat.exists_eq_add_one.mpr (Nat.zero_lt_of_lt hfuel)
      have hgo : ¬ (head = 0 ∨ orphanPlausible (orphanSetNext v c 0) head = false) := by
        rintro (hzero | hno)
        · exact hnz hzero
        · exact Bool.false_ne_true (hno.symm.trans (husable head List.mem_cons_self))
      have hcx : head ≠ c := fun heq => hne (heq ▸ List.mem_cons_self)
      -- what follows is on the way to `p`, so it is not `c`
      have hmem : (v.inodes head).delTime ∈ a ++ [p] := by
        cases a with
        | nil => exact List.mem_singleton.mpr htail.head_eq.1
        | cons y a => exact htail.head_eq.1 ▸ List.mem_cons_self
      have hnext : (v.inodes head).delTime ≠ c := fun heq =>
        hne (List.mem_cons_of_mem _ (heq ▸ hmem))
      unfold closeOver
      dsimp only
      rw [if_neg hgo, delTime_setNext hcx, if_neg hnext]
      exact ih htail (fun i hi => husable i (List.mem_cons_of_mem _ hi))
        (fun hn => hne (List.mem_cons_of_mem _ hn)) (Nat.lt_of_succ_lt_succ hfuel)

/-- The walk finds nothing that leads to an inode which is not on the list. -/
theorem closeOver_eq_self {l : List ℕ} {head fuel : ℕ}
    (hchain : IsChain (fun i => (v.inodes i).delTime) head l) (hc : c ∉ l) (hnz : c ≠ 0) :
    closeOver v c after fuel head = v := by
  induction hchain generalizing fuel with
  | nil =>
      cases fuel with
      | zero => rfl
      | succ fuel => exact if_pos (.inl rfl)
  | @cons i l hi htail ih =>
      cases fuel with
      | zero => rfl
      | succ fuel =>
          unfold closeOver
          dsimp only
          split
          · rfl
          · have hnext : (v.inodes i).delTime ≠ c := by
              intro heq
              rw [heq] at htail
              cases htail with
              | nil => exact hnz rfl
              | cons => exact hc (List.mem_cons_of_mem _ List.mem_cons_self)
            rw [if_neg hnext]
            exact ih fun hn => hc (List.mem_cons_of_mem _ hn)

end Walk

/-! ## Calls on names -/

/-- The volume a call leaves, failed or not. -/
def Result.volume : Result Volume → Volume
  | .ok v => v
  | .error (_, v) => v

/-- The volumes are the same to the list. -/
structure Volume.Alike (v w : Volume) : Prop where
  usable : ∀ i, orphanPlausible w i = orphanPlausible v i
  lastOrphan : w.lastOrphan = v.lastOrphan
  inodes : ∀ i, (v.inodes i).Alike (w.inodes i)

section Names

variable {v w : Volume}

theorem Volume.Alike.refl (v : Volume) : v.Alike v := ⟨fun _ => rfl, rfl, fun _ => .refl _⟩

theorem Volume.Alike.trans {x : Volume} (h : v.Alike w) (h' : w.Alike x) : v.Alike x :=
  ⟨fun i => (h'.usable i).trans (h.usable i), h'.lastOrphan.trans h.lastOrphan,
    fun i => (h.inodes i).trans (h'.inodes i)⟩

theorem Volume.Alike.modify {p : ℕ} {f : Inode → Inode}
    (hf : (v.inodes p).Alike (f (v.inodes p))) : v.Alike (v.modify p f) := by
  refine ⟨fun _ => rfl, rfl, fun i => ?_⟩
  by_cases hi : i = p
  · subst hi
    rw [Volume.modify_self]
    exact hf
  · rw [Volume.modify_of_ne _ _ _ hi]
    exact .refl _

theorem SameOrphans.alike {x : Volume} (h : SameOrphans v w) (h' : w.Alike x) :
    SameOrphans v x := by
  refine ⟨h'.lastOrphan.trans h.lastOrphan, fun i => ?_, fun i huse => ?_⟩
  · rw [← h.orphans i]
    unfold Volume.Orphan
    rw [h'.usable, (h'.inodes i).orphaned]
  · obtain ⟨huse', htime, -⟩ := h'.inodes i
    exact htime.trans (h.times i (huse'.symm.trans huse))

/-- What the edit keeps of the inode it edits, it keeps of all. -/
theorem modify_kept {α : Type} (φ : Inode → α) {p : ℕ} {f : Inode → Inode}
    (hf : φ (f (v.inodes p)) = φ (v.inodes p)) (i : ℕ) :
    φ ((v.modify p f).inodes i) = φ (v.inodes i) := by
  by_cases hi : i = p
  · subst hi
    rw [Volume.modify_self, hf]
  · rw [Volume.modify_of_ne _ _ _ hi]

theorem eraseEntry_kept (v : Volume) (name : Name) (d : Inode) :
    d.Alike (eraseEntry v name d) ∧ (eraseEntry v name d).type = d.type ∧
      (eraseEntry v name d).linksCnt = d.linksCnt ∧
      canTruncate (eraseEntry v name d) = canTruncate d := by
  unfold eraseEntry
  split
  · exact ⟨.refl _, rfl, rfl, rfl⟩
  · split
    · exact ⟨.refl _, rfl, rfl, rfl⟩
    · split <;> exact ⟨.refl _, rfl, rfl, rfl⟩

theorem linksCountDec_alike {d : Inode} (hdir : d.type = .dir) : d.Alike (linksCountDec d) := by
  refine ⟨rfl, rfl, ?_⟩
  unfold linksCountDec
  dsimp only
  rw [if_neg (not_not.mpr hdir)]
  split
  · omega
  · rfl

/-- What the edit does not add to, it does not add to anywhere. -/
theorem modify_fewer {p : ℕ} {f : Inode → Inode}
    (hf : (f (v.inodes p)).linksCnt ≤ (v.inodes p).linksCnt) (i : ℕ) :
    ((v.modify p f).inodes i).linksCnt ≤ (v.inodes i).linksCnt := by
  by_cases hi : i = p
  · subst hi
    rw [Volume.modify_self]
    exact hf
  · rw [Volume.modify_of_ne _ _ _ hi]

theorem removeEntry_cases (v : Volume) (p : ℕ) (name : Name) :
    (∃ e, removeEntry v p name = .error (e, v)) ∨
      (v.inodes p).type = .dir ∧ removeEntry v p name = .ok (v.modify p (eraseEntry v name)) := by
  unfold removeEntry
  split
  · exact .inl ⟨_, rfl⟩
  · next hdir =>
    split
    · exact .inl ⟨_, rfl⟩
    · exact .inr ⟨not_not.mp hdir, rfl⟩

/-- What `unlink_child` does to the list's view of the volume. -/
structure Unlinks (v w : Volume) (c : ℕ) : Prop where
  off : AlikeOff v w c
  lastOrphan : w.lastOrphan = v.lastOrphan
  inUse : (w.inodes c).inUse = (v.inodes c).inUse
  delTime : (w.inodes c).delTime = (v.inodes c).delTime
  linksCnt : (v.inodes c).type ≠ .dir → (w.inodes c).linksCnt = (v.inodes c).linksCnt - 1
  truncate : canTruncate (w.inodes c) = canTruncate (v.inodes c)
  type : ∀ i, (w.inodes i).type = (v.inodes i).type
  fewer : ∀ i, (w.inodes i).linksCnt ≤ (v.inodes i).linksCnt

theorem unlinkChild_cases (v : Volume) (p c : ℕ) (name : Name) :
    (∃ e, unlinkChild v p c name = .error (e, v)) ∨
      ∃ w, unlinkChild v p c name = .ok w ∧ Unlinks v w c := by
  unfold unlinkChild
  dsimp only
  split
  · exact .inl ⟨_, rfl⟩
  · rcases removeEntry_cases v p name with ⟨e, herror⟩ | ⟨hdir, hremove⟩
    · rw [herror]
      exact .inl ⟨e, rfl⟩
    · rw [hremove]
      obtain ⟨halike, htype, hlinks, htruncate⟩ := eraseEntry_kept v name (v.inodes p)
      have hoff := AlikeOff.modify (c := c) halike
      have htypes := modify_kept (v := v) Inode.type htype
      right
      change ∃ w, (if (v.inodes c).type = .dir then Except.ok _ else Except.ok _) = Except.ok w ∧ _
      by_cases hchild : (v.inodes c).type = .dir
      · rw [if_pos hchild]
        have hdec := linksCountDec_alike ((htypes p).trans hdir)
        refine ⟨_, rfl, (hoff.trans (.modify hdec)).trans (.modify_self _), rfl, ?_, ?_,
          fun hn => absurd hchild hn, ?_, fun i => ?_, fun i => ?_⟩
        · rw [Volume.modify_self]
          exact (modify_kept Inode.inUse rfl c).trans (modify_kept Inode.inUse halike.1 c)
        · rw [Volume.modify_self]
          exact (modify_kept Inode.delTime rfl c).trans (modify_kept Inode.delTime halike.2.1 c)
        · rw [Volume.modify_self]
          exact (modify_kept canTruncate rfl c).trans (modify_kept canTruncate htruncate c)
        · exact (modify_kept Inode.type rfl i).trans
            ((modify_kept Inode.type rfl i).trans (htypes i))
        · exact (modify_fewer (Nat.zero_le _) i).trans ((modify_fewer (linksCountDec_le _) i).trans
            (modify_fewer hlinks.le i))
      · rw [if_neg hchild]
        refine ⟨_, rfl, hoff.trans (.modify_self _), rfl, ?_, ?_, fun _ => ?_, ?_, fun i => ?_,
          fun i => (modify_fewer (linksCountDec_le _) i).trans (modify_fewer hlinks.le i)⟩
        · rw [Volume.modify_self]
          exact modify_kept Inode.inUse halike.1 c
        · rw [Volume.modify_self]
          exact modify_kept Inode.delTime halike.2.1 c
        · rw [Volume.modify_self]
          unfold linksCountDec
          dsimp only
          rw [htypes c, if_pos hchild, modify_kept Inode.linksCnt hlinks c]
        · rw [Volume.modify_self]
          exact modify_kept canTruncate htruncate c
        · exact (modify_kept Inode.type rfl i).trans (htypes i)

theorem freeInode_cases (v : Volume) (now ino : ℕ) :
    (canTruncate (v.inodes ino) = true ∧
        freeInode v now ino = .ok (v.modify ino (freedInode now))) ∨
      canTruncate (v.inodes ino) = false ∧
        freeInode v now ino = .error (Errno.EINVAL, orphanSetNext v ino now) := by
  unfold freeInode
  cases h : canTruncate (v.inodes ino) with
  | true => exact .inl ⟨rfl, if_pos rfl⟩
  | false => exact .inr ⟨rfl, if_neg Bool.false_ne_true⟩

theorem ok_bind {α β : Type} (a : α) (f : α → Result β) : (Except.ok a >>= f) = f a := rfl

/-- The victim of a rename, another inode than the one that moves, cannot be truncated, and it is
    found out too late. -/
def Stuck (v : Volume) (moved : Option ℕ) (dstParent : ℕ) (dstName : Name) (r : Result Volume) :
    Prop :=
  (∃ victim, findEntry v (v.inodes dstParent) dstName = some victim ∧ moved ≠ some victim ∧
      (v.inodes victim).linksCnt = 1 ∧ canTruncate (v.inodes victim) = false) ∧
    ∃ e w, r = .error (e, w) ∧ w.lastOrphan = v.lastOrphan

/-- A file that makes way loses a name, and is freed if that was the last: no orphan comes or
    goes. -/
theorem replaceTarget_same (env : Env) {dstParent child : ℕ} {dstName : Name}
    (hfile : (v.inodes child).type ≠ .dir)
    (hvictim : ∀ victim, findEntry v (v.inodes dstParent) dstName = some victim →
      victim ≠ child → (v.inodes victim).inUse = true ∧ (v.inodes victim).linksCnt ≠ 0) :
    (∃ e, replaceTarget v env dstParent dstName child = .error (e, v)) ∨
      Stuck v (some child) dstParent dstName (replaceTarget v env dstParent dstName child) ∨
      ∃ w, replaceTarget v env dstParent dstName child = .ok w ∧ SameOrphans v w ∧
        (w.inodes child).type ≠ .dir := by
  unfold replaceTarget
  cases hfound : findEntry v (v.inodes dstParent) dstName with
  | none => exact .inr (.inr ⟨v, rfl, .refl v, hfile⟩)
  | some victim =>
      dsimp only
      by_cases heq : victim = child
      · rw [if_pos heq]
        exact .inr (.inr ⟨v, rfl, .refl v, hfile⟩)
      rw [if_neg heq]
      by_cases hdir : (v.inodes victim).type = .dir
      · rw [if_pos ⟨hfile, hdir⟩]
        exact .inl ⟨_, rfl⟩
      rw [if_neg fun hn => hdir hn.2, if_neg fun hn => hfile hn.1]
      by_cases hforbidden : unlinkForbidden (v.inodes dstParent) (v.inodes victim) = true
      · rw [if_pos hforbidden]
        exact .inl ⟨_, rfl⟩
      rw [if_neg hforbidden]
      obtain ⟨hused, hlinks⟩ := hvictim victim hfound heq
      rcases unlinkChild_cases v dstParent victim dstName with ⟨e, herror⟩ | ⟨w, hok, hunlinks⟩
      · rw [herror]
        exact .inl ⟨e, rfl⟩
      rw [hok, ok_bind]
      have hcnt := hunlinks.linksCnt hdir
      have hold : ¬ v.Orphan victim := fun hn => hlinks hn.2.2
      by_cases hzero : (w.inodes victim).linksCnt = 0
      · right
        rw [if_pos hzero]
        rcases freeInode_cases w env.now victim with ⟨-, hfree⟩ | ⟨hno, hfree⟩
        · right
          refine ⟨_, hfree, ?_, ?_⟩
          · refine (hunlinks.off.trans (.modify_self _)).same hunlinks.lastOrphan ?_ ?_
            · refine iff_of_false (fun hn => ?_) hold
              have huse := hn.2.1
              rw [Volume.modify_self] at huse
              cases huse
            · rw [Volume.modify_self, hused]
              exact fun hn => absurd hn Bool.false_ne_true
          · rw [modify_kept Inode.type rfl child, hunlinks.type]
            exact hfile
        · left
          refine ⟨⟨victim, hfound, fun hn => heq (Option.some.inj hn).symm, by omega,
            hunlinks.truncate ▸ hno⟩, _, _, hfree, hunlinks.lastOrphan⟩
      · right; right
        rw [if_neg hzero]
        refine ⟨w, rfl, hunlinks.off.same hunlinks.lastOrphan ?_ fun _ => hunlinks.delTime,
          fun hn => hfile ((hunlinks.type child).symm.trans hn)⟩
        exact iff_of_false (fun hn => hzero hn.2.2) hold

/-- The move of a file is nothing to the list, failed or not. -/
theorem moveEntry_alike {env : Env} {srcParent dstParent child : ℕ} {srcName dstName : Name}
    (hfile : (v.inodes child).type ≠ .dir) :
    v.Alike (moveEntry v env srcParent srcName dstParent dstName child).volume := by
  unfold moveEntry linkChild
  dsimp only
  split
  · exact .refl v
  have htype := modify_kept (v := v) (p := dstParent) (f := addEntry env.pos dstName child)
    Inode.type rfl child
  have hadd : v.Alike (v.modify dstParent (addEntry env.pos dstName child)) := .modify (.refl _)
  rw [htype, if_neg hfile, if_neg (by decide), ok_bind]
  generalize v.modify dstParent (addEntry env.pos dstName child) = x at hadd htype
  rcases removeEntry_cases x srcParent srcName with ⟨e, herror⟩ | ⟨-, hok⟩
  · rw [herror]
    exact hadd
  · obtain ⟨halike, herase, -, -⟩ := eraseEntry_kept x srcName (x.inodes srcParent)
    have htype' := modify_kept Inode.type herase child
    rw [hok, ok_bind, if_neg fun hn => hfile (htype.symm.trans (htype'.symm.trans hn.1))]
    exact hadd.trans (.modify halike)

/-- **A rename of a file** makes and unmakes no orphan, failed or not, but for the victim that
    cannot be truncated. -/
theorem rename_same (env : Env) {srcParent dstParent : ℕ} {srcName dstName : Name}
    (hfile : ∀ child, findEntry v (v.inodes srcParent) srcName = some child →
      (v.inodes child).type ≠ .dir)
    (hvictim : ∀ victim, findEntry v (v.inodes dstParent) dstName = some victim →
      findEntry v (v.inodes srcParent) srcName ≠ some victim →
        (v.inodes victim).inUse = true ∧ (v.inodes victim).linksCnt ≠ 0) :
    Stuck v (findEntry v (v.inodes srcParent) srcName) dstParent dstName
        (rename v env srcParent srcName dstParent dstName) ∨
      SameOrphans v (rename v env srcParent srcName dstParent dstName).volume := by
  unfold rename
  split
  · exact .inr (.refl v)
  split
  · exact .inr (.refl v)
  · next child hfound =>
    split
    · exact .inr (.refl v)
    · have htype := hfile child hfound
      rw [if_neg fun hn => htype hn.1]
      rcases replaceTarget_same env htype fun victim hdst hne =>
        hvictim victim hdst fun heq => hne (Option.some.inj (hfound.symm.trans heq)).symm with
        ⟨e, herror⟩ | hstuck | ⟨w, hok, hsame, htype'⟩
      · change _ ∨ SameOrphans v (Result.volume (replaceTarget v env dstParent dstName child >>= _))
        rw [herror]
        exact .inr (.refl v)
      · obtain ⟨hvictim', e, w, herror, hlast⟩ := hstuck
        refine .inl ⟨hfound.symm ▸ hvictim', e, w, ?_, hlast⟩
        change (replaceTarget v env dstParent dstName child >>= _) = _
        rw [herror]
        rfl
      · right
        change SameOrphans v (Result.volume (replaceTarget v env dstParent dstName child >>= _))
        rw [hok, ok_bind]
        exact hsame.alike (moveEntry_alike htype')

/-- How a deletion ends: refused; with the last name taken and the inode in front of the list or
    freed; or with a name less. -/
theorem unlinkEx_cases (v : Volume) (env : Env) (parent : ℕ) (name : Name) (deferRelease : Bool) :
    (∃ e, unlinkEx v env parent name deferRelease = .error (e, v)) ∨
      ∃ child w, findEntry v (v.inodes parent) name = some child ∧ Unlinks v w child ∧
        (((w.inodes child).linksCnt = 0 ∧ unlinkEx v env parent name deferRelease =
            if deferRelease = true then
              .ok (true, { orphanSetNext w child w.lastOrphan with lastOrphan := child })
            else (freeInode w env.now child).map fun v => (false, v)) ∨
          ((w.inodes child).linksCnt ≠ 0 ∧
            unlinkEx v env parent name deferRelease = .ok (false, w))) := by
  unfold unlinkEx
  split
  · exact .inl ⟨_, rfl⟩
  split
  · exact .inl ⟨_, rfl⟩
  split
  · exact .inl ⟨_, rfl⟩
  next child hfound =>
  split
  · exact .inl ⟨_, rfl⟩
  rcases unlinkChild_cases v parent child name with ⟨e, herror⟩ | ⟨w, hok, hunlinks⟩
  · rw [herror]
    exact .inl ⟨e, rfl⟩
  rw [hok, ok_bind]
  refine .inr ⟨child, w, hfound, hunlinks, ?_⟩
  by_cases hzero : (w.inodes child).linksCnt = 0
  · rw [if_pos hzero]
    refine .inl ⟨hzero, ?_⟩
    cases deferRelease with
    | true => rfl
    | false =>
        rcases freeInode_cases w env.now child with ⟨-, hfree⟩ | ⟨-, hfree⟩ <;> rw [hfree] <;> rfl
  · rw [if_neg hzero]
    exact .inr ⟨hzero, rfl⟩

end Names

end Ext4b
