import OpenExt4.Bridge.Cleanup

set_option autoImplicit false

/-! # The cleanup at mount, turn after turn

What the loop of `ext4b_orphan_cleanup` does to a chain, and which chains and faults make it lose an
orphan. -/

namespace Ext4b

/-! ## Turns after turns -/

section Loop

variable {v : Volume} {faults : ℕ → Faults} {now : ℕ}

/-- The chain comes back to an allocated inode, which has lost its place in it by now. -/
def Closes (v : Volume) (k : ℕ) : Prop :=
  Visited v k (headAt v k) ∧ (v.inodes (headAt v k)).inUse = true

/-- The loop comes to an inode in turn `k`. -/
def Comes (v : Volume) (faults : ℕ → Faults) (k : ℕ) : Prop :=
  headAt v k ≠ 0 ∧ ∀ j < k, ((faults j).reads ∧ (faults j).publish = none) ∧ ¬ Closes v j

/-- Turn `k` does not lose an orphan: if it gets as far as to edit the head, the head is written and
    the inode can be truncated and is freed. And the deletion time of an orphan that is met again
    is not the number of an inode. -/
def KeepsOrphan (v : Volume) (f : Faults) (now k : ℕ) : Prop :=
  f.reads → (v.inodes (headAt v k)).Orphaned →
    (¬ Closes v k →
      f.publish = none ∧ f.free = none ∧ canTruncate (v.inodes (headAt v k)) = true) ∧
    (Closes v k → orphanPlausible v now = false)

/-- The turns the loop comes to lose no orphan and their transactions are committed; and within
    `ORPHAN_WALK_LIMIT` turns the loop stops at what it cannot read or write, or the chain ends, or
    comes back to an allocated inode. -/
def CleanupCond (v : Volume) (faults : ℕ → Faults) (now : ℕ) : Prop :=
  (∀ k < ORPHAN_WALK_LIMIT, Comes v faults k →
    (faults k).txn.commit = none ∧ KeepsOrphan v (faults k) now k) ∧
  ((∃ k < ORPHAN_WALK_LIMIT, Comes v faults k ∧
      ¬ ((faults k).reads ∧ (faults k).publish = none)) ∨
    (∃ k ≤ ORPHAN_WALK_LIMIT, headAt v k = 0) ∨ ∃ k < ORPHAN_WALK_LIMIT, Closes v k)

theorem visited_succ {k i : ℕ} : Visited v (k + 1) i ↔ Visited v k i ∨ headAt v k = i := by
  constructor
  · rintro ⟨j, hj, hji⟩
    rcases Nat.lt_succ_iff_lt_or_eq.mp hj with hlt | rfl
    · exact .inl ⟨j, hlt, hji⟩
    · exact .inr hji
  · rintro (⟨j, hj, hji⟩ | hk)
    · exact ⟨j, Nat.lt_succ_of_lt hj, hji⟩
    · exact ⟨k, Nat.lt_succ_self k, hk⟩

/-- The inode of a turn is as it was unless it is allocated and has had its turn. -/
theorem afterTurns_headAt {k head : ℕ} (hopen : ¬ Closes v k) :
    (afterTurns v now k head).inodes (headAt v k) = v.inodes (headAt v k) := by
  by_cases hvisited : Visited v k (headAt v k)
  · rw [afterTurns_of_visited hvisited]
    refine settled_of_free ?_
    by_contra hused
    exact hopen ⟨hvisited, eq_true_of_ne_false hused⟩
  · exact afterTurns_of_not_visited hvisited

theorem orphanNext_afterTurns {k head : ℕ} (hnz : headAt v k ≠ 0) (hopen : ¬ Closes v k) :
    orphanNext (afterTurns v now k head) (headAt v k) = headAt v (k + 1) := by
  rw [headAt_succ hnz]
  unfold orphanNext
  dsimp only
  rw [afterTurns_headAt hopen]
  rfl

/-- The deletion time of an allocated inode that has had its turn leads nowhere. -/
theorem orphanNext_closes {k head : ℕ} (hcloses : Closes v k)
    (hnow : (v.inodes (headAt v k)).Orphaned → orphanPlausible v now = false) :
    orphanNext (afterTurns v now k head) (headAt v k) = 0 := by
  obtain ⟨hvisited, hused⟩ := hcloses
  unfold orphanNext
  dsimp only
  rw [afterTurns_of_visited hvisited]
  refine if_neg ?_
  by_cases hlinks : (v.inodes (headAt v k)).linksCnt = 0
  · rw [settled_of_orphaned ⟨hused, hlinks⟩]
    exact fun hn => Bool.false_ne_true ((hnow ⟨hused, hlinks⟩).symm.trans hn)
  · have hne : ¬ (v.inodes (headAt v k)).inUse = false := fun hn => by
      rw [hused] at hn
      cases hn
    rw [settled_of_links hne hlinks]
    exact fun hn => orphanPlausible_ne_zero hn rfl

/-- The turn of an inode that is new, or stays as it is. -/
theorem takeTurn_afterTurns {k : ℕ} (hnz : headAt v k ≠ 0) (hopen : ¬ Closes v k) :
    takeTurn (afterTurns v now k (headAt v k)) now =
      afterTurns v now (k + 1) (headAt v (k + 1)) := by
  have hinode := @afterTurns_headAt v now k (headAt v k) hopen
  have hinodes : ((afterTurns v now k (headAt v k)).modify (headAt v k) (settled now)).inodes =
      (afterTurns v now (k + 1) (headAt v (k + 1))).inodes := by
    funext i
    by_cases hi : i = headAt v k
    · subst hi
      rw [Volume.modify_self, hinode, afterTurns_of_visited (visited_succ.mpr (.inr rfl))]
    · rw [Volume.modify_of_ne _ _ _ hi]
      by_cases hvisited : Visited v k i
      · rw [afterTurns_of_visited hvisited,
          afterTurns_of_visited (visited_succ.mpr (.inl hvisited))]
      · rw [afterTurns_of_not_visited hvisited, afterTurns_of_not_visited]
        exact fun hn => (visited_succ.mp hn).elim hvisited fun heq => hi heq.symm
  have hnext := @orphanNext_afterTurns v now k (headAt v k) hnz hopen
  change Volume.mk ((afterTurns v now k (headAt v k)).modify (headAt v k) (settled now)).inodes _ _
    (orphanNext (afterTurns v now k (headAt v k)) (headAt v k)) _ = _
  rw [hinodes, hnext]
  rfl

/-- The turn of an allocated inode that is met again: its deletion time leads nowhere. -/
theorem takeTurn_closes {k : ℕ} (hcloses : Closes v k)
    (hnow : (v.inodes (headAt v k)).Orphaned → orphanPlausible v now = false) :
    takeTurn (afterTurns v now k (headAt v k)) now = afterTurns v now k 0 := by
  obtain ⟨hvisited, hused⟩ := hcloses
  have hinode := @afterTurns_of_visited v now k (headAt v k) _ hvisited
  have hmodify : (afterTurns v now k (headAt v k)).modify (headAt v k) (settled now) =
      afterTurns v now k (headAt v k) := by
    refine Volume.modify_eq_self _ _ _ ?_
    rw [hinode]
    by_cases hlinks : (v.inodes (headAt v k)).linksCnt = 0
    · rw [settled_of_orphaned ⟨hused, hlinks⟩]
      exact settled_of_free rfl
    · have hne : ¬ (v.inodes (headAt v k)).inUse = false := fun hn => by
        rw [hused] at hn
        cases hn
      rw [settled_of_links hne hlinks]
      exact settled_of_links hne hlinks
  have hnext := @orphanNext_closes v now k (headAt v k) ⟨hvisited, hused⟩ hnow
  change Volume.mk ((afterTurns v now k (headAt v k)).modify (headAt v k) (settled now)).inodes _ _
    (orphanNext (afterTurns v now k (headAt v k)) (headAt v k)) _ = _
  rw [hmodify, hnext]
  rfl

theorem orphansMet_zero : orphansMet v 0 = ∅ := rfl

theorem orphansMet_succ {k : ℕ} : orphansMet v (k + 1) =
    if (v.inodes (headAt v k)).Orphaned then insert (headAt v k) (orphansMet v k)
    else orphansMet v k := by
  unfold orphansMet
  rw [Finset.range_add_one, Finset.image_insert, Finset.filter_insert]

theorem card_orphansMet_succ {k : ℕ} (hopen : ¬ Closes v k) :
    (orphansMet v (k + 1)).card =
      (orphansMet v k).card + if (v.inodes (headAt v k)).Orphaned then 1 else 0 := by
  rw [orphansMet_succ]
  split
  · next horphan =>
    refine Finset.card_insert_of_notMem fun hmem => ?_
    exact hopen ⟨(mem_orphansMet.mp hmem).1, horphan.1⟩
  · rfl

/-- At its end every inode of the chain has been met. -/
theorem visited_of_end {k i : ℕ} (hend : headAt v k = 0) (hon : OnChain v i) : Visited v k i := by
  obtain ⟨-, hi, n, hn⟩ := hon
  refine ⟨n, ?_, hn⟩
  by_contra hlt
  have hlater := headAt_zero_add hend (n - k)
  rw [show k + (n - k) = n by omega, hn] at hlater
  exact hi hlater

/-- Where it comes back to an inode, too. -/
theorem visited_of_repeat {k i : ℕ} (hrepeat : Visited v k (headAt v k)) (hon : OnChain v i) :
    Visited v k i := by
  obtain ⟨-, -, hex⟩ := hon
  obtain ⟨j, hj, hjk⟩ := hrepeat
  -- the first time the chain comes to `i`
  have hfirst := fun j => Nat.find_min (m := j) hex
  have hn := Nat.find_spec hex
  generalize Nat.find hex = n at hfirst hn
  refine ⟨n, ?_, hn⟩
  by_contra hlt
  have hearlier := headAt_repeat hjk (n - k)
  rw [show k + (n - k) = n by omega, hn] at hearlier
  exact hfirst _ (by omega) hearlier

theorem cleanupLoop_of_stop {guard k : ℕ} {c c' : Cleanup} {r : Option Errno}
    (hturn : cleanupTurn c (faults k) now = (some r, c')) :
    cleanupLoop faults now (guard + 1) k c = (r, c') := by
  rw [cleanupLoop, hturn]

theorem cleanupLoop_of_go {guard k : ℕ} {c c' : Cleanup}
    (hturn : cleanupTurn c (faults k) now = (none, c')) :
    cleanupLoop faults now (guard + 1) k c = cleanupLoop faults now guard (k + 1) c' := by
  rw [cleanupLoop, hturn]

theorem cleanupLoop_of_end {guard k : ℕ} {c : Cleanup} (hend : c.mount.cur.lastOrphan = 0) :
    cleanupLoop faults now guard k c = (none, c) := by
  cases guard with
  | zero => rfl
  | succ guard =>
      exact cleanupLoop_of_stop (if_pos hend)

/-- **The loop from turn `k` on cleans up**, under its condition. -/
theorem cleanupLoop_cleanedUp (hhead : orphanPlausible v v.lastOrphan = true)
    (hcond : CleanupCond v faults now) :
    ∀ (guard k : ℕ) (c : Cleanup), k + guard = ORPHAN_WALK_LIMIT →
      c.mount.cur = afterTurns v now k (headAt v k) → c.mount.Synced →
      c.freed = (orphansMet v k).card → (∀ j < k, headAt v j ≠ 0) →
      (∀ j < k, ((faults j).reads ∧ (faults j).publish = none) ∧ ¬ Closes v j) →
      CleanedUp v (cleanupLoop faults now guard k c).1
        (cleanupLoop faults now guard k c).2.mount.cur
        (cleanupLoop faults now guard k c).2.freed := by
  intro guard
  induction guard with
  | zero =>
      intro k c hk hcur hsync hcount hne hpast
      obtain rfl : k = ORPHAN_WALK_LIMIT := hk
      have hend : headAt v ORPHAN_WALK_LIMIT = 0 := by
        rcases hcond.2 with ⟨j, hj, -, hstop⟩ | ⟨j, hj, hzero⟩ | ⟨j, hj, hcloses⟩
        · exact absurd (hpast j hj).1 hstop
        · have hlater := headAt_zero_add hzero (ORPHAN_WALK_LIMIT - j)
          rwa [Nat.add_sub_cancel' hj] at hlater
        · exact absurd hcloses (hpast j hj).2
      change CleanedUp v none c.mount.cur c.freed
      rw [hcur, hend]
      exact cleanedUp_of_all hhead hne (fun i => visited_of_end hend) none fun _ => hcount
  | succ guard ih =>
      intro k c hk hcur hsync hcount hne hpast
      have hlast : c.mount.cur.lastOrphan = headAt v k := by rw [hcur]; rfl
      by_cases hzero : headAt v k = 0
      · rw [cleanupLoop_of_end (hlast.trans hzero)]
        dsimp only
        rw [hcur, hzero]
        exact cleanedUp_of_all hhead hne (fun i => visited_of_end hzero) none fun _ => hcount
      obtain ⟨hcommit, hkeeps⟩ := hcond.1 k (by omega) ⟨hzero, hpast⟩
      have hinode : ¬ Closes v k → c.mount.cur.inodes (headAt v k) = v.inodes (headAt v k) :=
        fun hopen => by rw [hcur]; exact afterTurns_headAt hopen
      -- an orphan met again has been freed
      have hmet : Closes v k → ¬ (c.mount.cur.inodes (headAt v k)).Orphaned := by
        rintro ⟨hvisited, -⟩ horphan
        rw [hcur, afterTurns_of_visited hvisited] at horphan
        exact (settled_inUse.mp horphan.1).2 (by
          have hlinks := horphan.2
          unfold settled at hlinks
          split at hlinks
          · exact hlinks
          · split at hlinks
            · exact hlinks
            · next hno => exact not_not.mp hno)
      have hfree : (faults k).reads → (faults k).publish = none →
          (c.mount.cur.inodes c.mount.cur.lastOrphan).Orphaned →
            (faults k).free = none ∧
              canTruncate (c.mount.cur.inodes c.mount.cur.lastOrphan) = true := by
        rw [hlast]
        intro hreads _ horphan
        have hopen : ¬ Closes v k := fun hcloses => hmet hcloses horphan
        rw [hinode hopen] at horphan ⊢
        exact ((hkeeps hreads horphan).1 hopen).2
      have hino : orphanPlausible c.mount.cur c.mount.cur.lastOrphan = true := by
        rw [hlast, hcur]
        exact headAt_plausible hhead hzero
      obtain ⟨r, c', hturn, hturned⟩ := cleanupTurn_turned now hsync hino hcommit hfree
      have hnext : ∀ j < k + 1, headAt v j ≠ 0 := fun j hj =>
        (Nat.lt_succ_iff_lt_or_eq.mp hj).elim (hne j) fun heq => heq ▸ hzero
      cases hturned with
      | unread hreads hsame _ _ =>
          rw [cleanupLoop_of_stop hturn, hsame, hcur]
          exact cleanedUp_of_stop hhead hne le_rfl (fun j hj hkj => by omega) _ _
      | unwritten hreads hpublish hsame =>
          rw [cleanupLoop_of_stop hturn, hsame, hlast, hcur]
          by_cases hcloses : Closes v k
          · rw [orphanNext_closes hcloses fun horphan => (hkeeps hreads horphan).2 hcloses]
            exact cleanedUp_of_all hhead hne (fun i => visited_of_repeat hcloses.1) _
              fun hnone => absurd hnone (Option.some_ne_none _)
          · rw [orphanNext_afterTurns hzero hcloses]
            refine cleanedUp_of_stop hhead hne (Nat.le_succ k) (fun j hj hkj horphan => ?_) _ _
            obtain rfl : j = k := by omega
            exact hpublish ((hkeeps hreads horphan).1 hcloses).1
      | taken hreads hpublish hsync' _ hsame hr =>
          rw [hcur] at hsame
          rw [hlast] at hr
          by_cases hcloses : Closes v k
          · rw [takeTurn_closes hcloses fun horphan => (hkeeps hreads horphan).2 hcloses] at hsame
            rcases hr with ⟨rfl, hfreed⟩ | ⟨e, rfl, -⟩
            · rw [cleanupLoop_of_go hturn, cleanupLoop_of_end (by rw [hsame]; rfl), hsame]
              rw [if_neg (hmet hcloses), hcount] at hfreed
              exact cleanedUp_of_all hhead hne (fun i => visited_of_repeat hcloses.1) _
                fun _ => hfreed
            · rw [cleanupLoop_of_stop hturn, hsame]
              exact cleanedUp_of_all hhead hne (fun i => visited_of_repeat hcloses.1) _
                fun hnone => absurd hnone (Option.some_ne_none _)
          · rw [takeTurn_afterTurns hzero hcloses] at hsame
            rcases hr with ⟨rfl, hfreed⟩ | ⟨e, rfl, -⟩
            · rw [cleanupLoop_of_go hturn]
              rw [hinode hcloses, hcount] at hfreed
              refine ih (k + 1) c' (by omega) hsame hsync'
                (hfreed.trans (card_orphansMet_succ hcloses).symm) hnext fun j hj => ?_
              rcases Nat.lt_succ_iff_lt_or_eq.mp hj with hlt | rfl
              · exact hpast j hlt
              · exact ⟨⟨hreads, hpublish⟩, hcloses⟩
            · rw [cleanupLoop_of_stop hturn, hsame]
              exact cleanedUp_of_stop hhead hnext le_rfl (fun j hj hkj => by omega) _ _

end Loop

/-! ## Where an orphan is lost -/

section Loses

variable {v : Volume}

/-- A chain that ends comes to an inode once. -/
theorem headAt_injective (hends : ∃ k, headAt v k = 0) {j k : ℕ} (hj : headAt v j ≠ 0)
    (h : headAt v j = headAt v k) : j = k := by
  obtain ⟨e, he⟩ := hends
  -- between two visits the chain would go round and round
  have hround : ∀ a b, a < b → headAt v a = headAt v b → headAt v a = 0 := by
    intro a b hab hsame
    have hturns : ∀ t, headAt v (a + t * (b - a)) = headAt v a := by
      intro t
      induction t with
      | zero => rw [Nat.zero_mul, Nat.add_zero]
      | succ t ih =>
          have hnext := headAt_repeat hsame (t * (b - a))
          rw [show b + t * (b - a) = a + (t + 1) * (b - a) by rw [Nat.succ_mul]; omega] at hnext
          exact hnext.symm.trans ih
    have hlong : e ≤ a + e * (b - a) :=
      Nat.le_add_left_of_le (Nat.le_mul_of_pos_right e (by omega))
    have hzero := headAt_zero_add he (a + e * (b - a) - e)
    rw [Nat.add_sub_cancel' hlong] at hzero
    exact (hturns e).symm.trans hzero
  rcases Nat.lt_trichotomy j k with hlt | heq | hgt
  · exact absurd (hround j k hlt h) hj
  · exact heq
  · exact absurd (h.trans (hround k j hgt h.symm)) hj

theorem not_closes (hends : ∃ k, headAt v k = 0) {k : ℕ} (hk : headAt v k ≠ 0) :
    ¬ Closes v k := by
  rintro ⟨⟨j, hj, hjk⟩, -⟩
  exact absurd (headAt_injective hends (hjk ▸ hk) hjk) (Nat.ne_of_lt hj)

/-- A volume whose head has moved past an orphan that is still allocated. -/
theorem not_cleanedUp_of_loses {w : Volume} {now k n : ℕ} {e : Errno}
    (hhead : orphanPlausible v v.lastOrphan = true) (hends : ∃ k, headAt v k = 0)
    (hk : headAt v k ≠ 0) (horphan : (v.inodes (headAt v k)).Orphaned)
    (hlast : w.lastOrphan = headAt v (k + 1)) (hused : (w.inodes (headAt v k)).inUse = true)
    (hinodes : ∀ i, i ≠ headAt v k →
      w.inodes i = (afterTurns v now k (headAt v k)).inodes i)
    (husable : ∀ i, orphanPlausible w i = orphanPlausible v i) :
    ¬ CleanedUp v (some e) w n := by
  intro hclean
  have hon : OnChain v (headAt v k) := ⟨hhead, hk, k, rfl⟩
  obtain ⟨-, -, t, ht⟩ := hclean.failure nofun _ hon horphan hused
  -- behind the inode the chain is what it was
  have hwalk : ∀ t, headAt w t = headAt v (k + 1 + t) := by
    intro t
    induction t with
    | zero => exact hlast
    | succ t ih =>
        change (if headAt w t = 0 then 0 else orphanNext w (headAt w t)) = _
        rw [ih]
        split
        · next hzero => exact (headAt_zero_add hzero 1).symm
        · next hnz =>
          have hlater : ∀ j ≤ k, headAt v j ≠ headAt v (k + 1 + t) := by
            intro j hj hsame
            have := headAt_injective hends (hsame ▸ hnz) hsame
            omega
          have hfresh : ¬ Visited v k (headAt v (k + 1 + t)) := fun ⟨j, hj, hjt⟩ =>
            hlater j (Nat.le_of_lt hj) hjt
          have hinode : w.inodes (headAt v (k + 1 + t)) = v.inodes (headAt v (k + 1 + t)) := by
            rw [hinodes _ fun hsame => hlater k le_rfl hsame.symm,
              afterTurns_of_not_visited hfresh]
          rw [← Nat.add_assoc, headAt_succ hnz]
          unfold orphanNext
          dsimp only
          rw [hinode, husable]
  rw [hwalk t] at ht
  have := headAt_injective hends hk ht.symm
  omega

variable {faults : ℕ → Faults} {now : ℕ}

/-- **A loop that cleans up a chain that ends meets the condition**, if no commit fails. -/
theorem cleanupLoop_cond (hhead : orphanPlausible v v.lastOrphan = true)
    (hends : ∃ k, headAt v k = 0)
    (htxn : ∀ k, (faults k).txn.commit = none ∧ (faults k).txn.flush = none) :
    ∀ (guard k : ℕ) (c : Cleanup), k + guard = ORPHAN_WALK_LIMIT →
      c.mount.cur = afterTurns v now k (headAt v k) → c.mount.Synced →
      CleanedUp v (cleanupLoop faults now guard k c).1
        (cleanupLoop faults now guard k c).2.mount.cur
        (cleanupLoop faults now guard k c).2.freed →
      (∀ j < ORPHAN_WALK_LIMIT, k ≤ j → Comes v faults j → KeepsOrphan v (faults j) now j) ∧
        ((∀ j < k, (faults j).reads ∧ (faults j).publish = none) →
          (∃ j < ORPHAN_WALK_LIMIT, Comes v faults j ∧
            ¬ ((faults j).reads ∧ (faults j).publish = none)) ∨
          ∃ j ≤ ORPHAN_WALK_LIMIT, headAt v j = 0) := by
  intro guard
  induction guard with
  | zero =>
      intro k c hk hcur hsync hclean
      refine ⟨fun j hj hkj => by omega, fun _ => .inr ⟨k, Nat.le_of_eq hk, ?_⟩⟩
      have hzero : c.mount.cur.lastOrphan = 0 := (hclean.success rfl).1
      rw [hcur] at hzero
      exact hzero
  | succ guard ih =>
      intro k c hk hcur hsync hclean
      have hlast : c.mount.cur.lastOrphan = headAt v k := by rw [hcur]; rfl
      by_cases hzero : headAt v k = 0
      · refine ⟨fun j _ hkj hcomes => absurd ?_ hcomes.1, fun _ => .inr ⟨k, by omega, hzero⟩⟩
        have hlater := headAt_zero_add hzero (j - k)
        rwa [Nat.add_sub_cancel' hkj] at hlater
      have hopen : ¬ Closes v k := not_closes hends hzero
      have hino : orphanPlausible c.mount.cur c.mount.cur.lastOrphan = true := by
        rw [hlast, hcur]
        exact headAt_plausible hhead hzero
      have hinode : c.mount.cur.inodes c.mount.cur.lastOrphan = v.inodes (headAt v k) := by
        rw [hlast, hcur]
        exact afterTurns_headAt hopen
      have hnext : orphanNext c.mount.cur c.mount.cur.lastOrphan = headAt v (k + 1) := by
        rw [hlast, hcur]
        exact orphanNext_afterTurns hzero hopen
      have hkeeps : (faults k).reads → (v.inodes (headAt v k)).Orphaned →
          (faults k).publish = none ∧ (faults k).free = none ∧
            canTruncate (v.inodes (headAt v k)) = true := by
        intro hreads horphan
        by_contra hfails
        rw [← hinode] at hfails horphan
        obtain ⟨e, c', hturn, hlast', hused, hinodes, husable⟩ := cleanupTurn_loses
          now hsync hino (htxn k).1 hreads horphan hfails
        rw [hinode] at horphan
        rw [cleanupLoop_of_stop hturn] at hclean
        rw [hlast] at hused hinodes
        rw [hcur] at hinodes
        refine not_cleanedUp_of_loses hhead hends hzero horphan (hlast'.trans hnext) hused
          hinodes (fun i => ?_) hclean
        rw [husable, hcur]
        rfl
      have hkeepsNow : KeepsOrphan v (faults k) now k := fun hreads horphan =>
        ⟨fun _ => hkeeps hreads horphan, fun hcloses => absurd hcloses hopen⟩
      have hpastOpen : ∀ j < k, ¬ Closes v j := fun j hj => not_closes hends fun hjzero => by
        have hlater := headAt_zero_add hjzero (k - j)
        rw [Nat.add_sub_cancel' (Nat.le_of_lt hj)] at hlater
        exact hzero hlater
      -- a turn that stops is the last the loop comes to
      have hstops : ¬ ((faults k).reads ∧ (faults k).publish = none) →
          (∀ j < ORPHAN_WALK_LIMIT, k ≤ j → Comes v faults j →
            KeepsOrphan v (faults j) now j) ∧
          ((∀ j < k, (faults j).reads ∧ (faults j).publish = none) →
            (∃ j < ORPHAN_WALK_LIMIT, Comes v faults j ∧
              ¬ ((faults j).reads ∧ (faults j).publish = none)) ∨
            ∃ j ≤ ORPHAN_WALK_LIMIT, headAt v j = 0) := by
        refine fun hstop => ⟨fun j _ hkj hcomes => ?_, fun hpast => .inl ⟨k, by omega,
          ⟨hzero, fun j hj => ⟨hpast j hj, hpastOpen j hj⟩⟩, hstop⟩⟩
        rcases Nat.eq_or_lt_of_le hkj with rfl | hlt
        · exact hkeepsNow
        · exact absurd (hcomes.2 k hlt).1 hstop
      obtain ⟨r, c', hturn, hturned⟩ := cleanupTurn_turned now hsync hino (htxn k).1
        (by rw [hinode]; exact fun hreads _ horphan => (hkeeps hreads horphan).2)
      cases hturned with
      | unread hreads _ _ _ => exact hstops fun hgo => hreads hgo.1
      | unwritten _ hpublish _ => exact hstops fun hgo => hpublish hgo.2
      | taken hreads hpublish hsync' _ hsame hr =>
          obtain ⟨rfl, -⟩ := hr.resolve_right <| by
            rintro ⟨e, -, he⟩
            exact Option.some_ne_none e (he.symm.trans (htxn k).2)
          rw [cleanupLoop_of_go hturn] at hclean
          rw [hcur, takeTurn_afterTurns hzero hopen] at hsame
          obtain ⟨hlater, hstop⟩ := ih (k + 1) c' (by omega) hsame hsync' hclean
          refine ⟨fun j hj hkj hcomes => ?_, fun hpast => hstop fun j hj => ?_⟩
          · rcases Nat.eq_or_lt_of_le hkj with rfl | hlt
            · exact hkeepsNow
            · exact hlater j hj hlt hcomes
          · rcases Nat.lt_succ_iff_lt_or_eq.mp hj with hlt | rfl
            · exact hpast j hlt
            · exact ⟨hreads, hpublish⟩

end Loses

/-! ## Cleanup -/

/-- Without a chain there is nothing to do but to clear the head. -/
theorem cleanedUp_of_no_chain {v : Volume} (hno : orphanPlausible v v.lastOrphan = false)
    (r : Option Errno) : CleanedUp v r { v with lastOrphan := 0 } 0 := by
  have hoff : ∀ i, ¬ OnChain v i := fun i hon => Bool.false_ne_true (hno.symm.trans hon.1)
  have hsame : ∀ i, (v.inodes i).inUse = true → (v.inodes i).inUse = false → False :=
    fun i hused hfree => Bool.false_ne_true (hfree.symm.trans hused)
  refine ⟨fun i hused hfree => (hsame i hused hfree).elim, fun i _ => ⟨rfl, fun _ => rfl⟩,
    fun i => id, fun _ => ⟨rfl, fun i hon => absurd hon (hoff i)⟩, fun _ => ?_,
    fun _ i hon => absurd hon (hoff i)⟩
  have hlost : lost v { v with lastOrphan := 0 } = ∅ :=
    Set.eq_empty_of_forall_notMem fun i hi => hsame i hi.1 hi.2
  rw [hlost, Set.ncard_empty]

theorem orphanCleanup_of_turn {m : Mount} {faults : ℕ → Faults} {now : ℕ} {r : Option Errno}
    {c : Cleanup} (hturn : cleanupTurn ⟨m, 0, 0⟩ (faults 0) now = (some r, c)) :
    orphanCleanup m faults now = (r, c) := by
  unfold orphanCleanup
  rw [show ORPHAN_WALK_LIMIT = 4095 + 1 from rfl, cleanupLoop, hturn]

theorem orphanCleanup_of_no_chain {m : Mount} (faults : ℕ → Faults) (now : ℕ)
    (hno : orphanPlausible m.cur m.cur.lastOrphan = false) :
    CleanedUp m.cur (orphanCleanup m faults now).1 (orphanCleanup m faults now).2.mount.cur
      (orphanCleanup m faults now).2.freed := by
  have hclean := fun r => cleanedUp_of_no_chain hno r
  by_cases hzero : m.cur.lastOrphan = 0
  · have hcur : { m.cur with lastOrphan := 0 } = m.cur := by rw [← hzero]
    unfold orphanCleanup
    rw [cleanupLoop_of_end hzero]
    exact hcur ▸ hclean none
  · cases hpublish : (faults 0).publish with
    | some e =>
        have hstop : cleanupTurn ⟨m, 0, 0⟩ (faults 0) now
            = (some (some e), ⟨{ m with cur := { m.cur with lastOrphan := 0 } }, 0, 0⟩) :=
          (if_neg hzero).trans ((if_pos hno).trans (by rw [hpublish]))
        rw [orphanCleanup_of_turn hstop]
        exact hclean (some e)
    | none =>
        have hstop : cleanupTurn ⟨m, 0, 0⟩ (faults 0) now
            = (some none, ⟨m.publishHead (m.txnOps != 0) 0, 0, 0⟩) :=
          (if_neg hzero).trans ((if_pos hno).trans (by rw [hpublish]))
        rw [orphanCleanup_of_turn hstop]
        exact hclean none

/-- Nothing fails. -/
def noFaults (_ : ℕ) : Faults := ⟨none, none, none, none, none, ⟨false, none, none⟩⟩

/-- Orphan 12 of the given type leads to file 13, which has a name again. -/
def orphanVolume (type : ItemType) : Volume where
  inodes i :=
    if i = 12 then { freshInode type with delTime := 13 }
    else if i = 13 then { freshInode .file with linksCnt := 1 }
    else { freshInode .file with inUse := false }
  inodesCount := 16
  firstInode := 11
  lastOrphan := 12
  dirIndex := false

/-- The volume as it is mounted, with a journal. -/
def orphanMount (type : ItemType) : Mount :=
  ⟨true, orphanVolume type, 12, orphanVolume type, 0, 1⟩

end Ext4b
