import OpenExt4.Journal.Record
import OpenExt4.Lib.Circular

set_option autoImplicit false

/-! # A transaction as a run of log blocks

What stands in the log for one transaction, without reference to the code that wrote it or the
code that reads it: descriptor blocks, each followed by the images of the blocks it describes,
then revoke blocks, then the commit block. The writer is shown to lay down such a run and the
reader to get the transaction out of any such run, so that the two meet here. -/

namespace Jbd

open Bytes

variable {bs : ℕ}

/-- The log block behind `p`, as allocation and the passes over the log step. -/
def adv (sb : JbdSb bs) (p : ℕ) : ℕ := Circular.next sb.first sb.maxlen p

theorem wrap_succ (sb : JbdSb bs) (p : ℕ) : wrap sb (p + 1) = adv sb p := rfl

/-- `p` is a block of the log area. -/
def InLog (sb : JbdSb bs) (p : ℕ) : Prop := Circular.Mem sb.first sb.maxlen p

instance (sb : JbdSb bs) (p : ℕ) : Decidable (InLog sb p) :=
  inferInstanceAs (Decidable (Circular.Mem _ _ _))

/-- The number of blocks of the log area. -/
def logSize (sb : JbdSb bs) : ℕ := sb.maxlen - sb.first

/-- What the log holds for the contents `w.2` of block `w.1`. -/
def logImage (w : ℕ × Buf bs) : Buf bs := escapeData (needsEscape w.2) w.2

/-- What the tag of a logged block says. -/
def tagKey (w : ℕ × Buf bs) : ℕ × Bool := (w.1, needsEscape w.2)

/-- `d` is the descriptor block of the blocks `chunk` in transaction `id`. -/
structure Describes (sb : JbdSb bs) (id : ℕ) (chunk : List (ℕ × Buf bs)) (d : Buf bs) : Prop where
  header : HeaderIs d JBD_DESCRIPTOR_BLOCK id
  csum : jbdVerifyMetaCsum sb d = true
  tags : (descriptorTags sb d).map (fun t => (t.block, t.isEscape)) = chunk.map tagKey

/-- `d` is a revoke block of transaction `id` with the records `lbas`. -/
structure RevokesBlocks (sb : JbdSb bs) (id : ℕ) (lbas : List ℕ) (d : Buf bs) : Prop where
  header : HeaderIs d JBD_REVOKE_BLOCK id
  csum : jbdVerifyMetaCsum sb d = true
  entries : revokeEntries sb d = lbas

/-- `d` is the commit block of transaction `id`. -/
structure Commits (sb : JbdSb bs) (id : ℕ) (d : Buf bs) : Prop where
  header : HeaderIs d JBD_COMMIT_BLOCK id
  csum : jbdVerifyCommitCsum sb d = true

/-- The data part of a transaction: descriptor blocks with the images they describe. -/
inductive DescStream (sb : JbdSb bs) (id : ℕ) : List (ℕ × Buf bs) → List (Buf bs) → Prop
  | nil : DescStream sb id [] []
  | cons {chunk : List (ℕ × Buf bs)} {d : Buf bs} {blocks : List (ℕ × Buf bs)}
      {stream : List (Buf bs)} (hd : Describes sb id chunk d)
      (hrest : DescStream sb id blocks stream) :
      DescStream sb id (chunk ++ blocks) (d :: chunk.map logImage ++ stream)

/-- The revoke part of a transaction. -/
inductive RevokeStream (sb : JbdSb bs) (id : ℕ) : List ℕ → List (Buf bs) → Prop
  | nil : RevokeStream sb id [] []
  | cons {chunk : List ℕ} {d : Buf bs} {lbas : List ℕ} {stream : List (Buf bs)}
      (hd : RevokesBlocks sb id chunk d) (hrest : RevokeStream sb id lbas stream) :
      RevokeStream sb id (chunk ++ lbas) (d :: stream)

/-- A further descriptor block with its images at the end. -/
theorem DescStream.snoc {sb : JbdSb bs} {id : ℕ} {blocks chunk : List (ℕ × Buf bs)}
    {stream : List (Buf bs)} {d : Buf bs} (h : DescStream sb id blocks stream)
    (hd : Describes sb id chunk d) :
    DescStream sb id (blocks ++ chunk) (stream ++ d :: chunk.map logImage) := by
  induction h with
  | nil => simpa using DescStream.cons hd DescStream.nil
  | cons hfirst _ ih =>
      simpa [List.append_assoc] using DescStream.cons hfirst ih

/-- A further revoke block at the end. -/
theorem RevokeStream.snoc {sb : JbdSb bs} {id : ℕ} {lbas chunk : List ℕ}
    {stream : List (Buf bs)} {d : Buf bs} (h : RevokeStream sb id lbas stream)
    (hd : RevokesBlocks sb id chunk d) :
    RevokeStream sb id (lbas ++ chunk) (stream ++ [d]) := by
  induction h with
  | nil => simpa using RevokeStream.cons hd RevokeStream.nil
  | cons hfirst _ ih =>
      simpa [List.append_assoc] using RevokeStream.cons hfirst ih

theorem DescStream.eq_nil {sb : JbdSb bs} {id : ℕ} {blocks : List (ℕ × Buf bs)}
    (h : DescStream sb id blocks []) : blocks = [] := by
  generalize hs : ([] : List (Buf bs)) = s at h
  cases h with
  | nil => rfl
  | cons => simp at hs

theorem RevokeStream.eq_nil {sb : JbdSb bs} {id : ℕ} {lbas : List ℕ}
    (h : RevokeStream sb id lbas []) : lbas = [] := by
  cases h
  rfl

/-- `stream` is the run of blocks of the whole transaction `id`. -/
def TransStream (sb : JbdSb bs) (id : ℕ) (blocks : List (ℕ × Buf bs)) (lbas : List ℕ)
    (stream : List (Buf bs)) : Prop :=
  ∃ s₁ s₂ c, DescStream sb id blocks s₁ ∧ RevokeStream sb id lbas s₂ ∧ Commits sb id c ∧
    stream = s₁ ++ s₂ ++ [c]

/-! ## Runs of blocks on the log -/

/-- The blocks `stream` stand on the log from `p` on, round the end of the log area. -/
def OnLog (sb : JbdSb bs) (log : ℕ → Buf bs) (p : ℕ) (stream : List (Buf bs)) : Prop :=
  ∀ k (h : k < stream.length), log ((adv sb)^[k] p) = stream[k]

variable {sb : JbdSb bs} {log : ℕ → Buf bs} {p : ℕ} {s t : List (Buf bs)} {b : Buf bs}

@[simp] theorem onLog_nil : OnLog sb log p [] := fun _ h => absurd h (Nat.not_lt_zero _)

@[simp] theorem onLog_cons : OnLog sb log p (b :: s) ↔ log p = b ∧ OnLog sb log (adv sb p) s := by
  constructor
  · intro h
    refine ⟨h 0 (by simp), fun k hk => ?_⟩
    have hnext := h (k + 1) (by simpa using hk)
    rw [Function.iterate_succ_apply] at hnext
    exact hnext
  · rintro ⟨hhead, htail⟩ k hk
    cases k with
    | zero => exact hhead
    | succ k => simpa [Function.iterate_succ_apply] using htail k (by simpa using hk)

@[simp] theorem onLog_append :
    OnLog sb log p (s ++ t) ↔ OnLog sb log p s ∧ OnLog sb log ((adv sb)^[s.length] p) t := by
  induction s generalizing p with
  | nil => simp
  | cons b s ih => simp [ih, and_assoc, Function.iterate_succ_apply]

/-- A store to a block behind the run leaves the run alone. -/
theorem OnLog.update {k : ℕ} (h : OnLog sb log p s) (hp : InLog sb p) (hk : s.length ≤ k)
    (hlt : k < logSize sb) : OnLog sb (Function.update log ((adv sb)^[k] p) b) p s := by
  intro j hj
  have hne : (adv sb)^[j] p ≠ (adv sb)^[k] p :=
    Circular.iterate_next_ne hp (by omega) (by unfold logSize at hlt; omega)
  rw [Function.update_of_ne hne]
  exact h j hj

/-- A store right behind the run makes the run one block longer. -/
theorem OnLog.snoc (h : OnLog sb log p s) (hp : InLog sb p) (hlt : s.length < logSize sb) :
    OnLog sb (Function.update log ((adv sb)^[s.length] p) b) p (s ++ [b]) := by
  rw [onLog_append]
  exact ⟨h.update hp le_rfl hlt, by simp⟩

/-- Rewriting one block of the run. -/
theorem OnLog.set (h : OnLog sb log p (s ++ b :: t)) (b' : Buf bs) (hp : InLog sb p)
    (hlt : (s ++ b :: t).length ≤ logSize sb) :
    OnLog sb (Function.update log ((adv sb)^[s.length] p) b') p (s ++ b' :: t) := by
  intro j hj
  have hj' : j < (s ++ b :: t).length := by simpa using hj
  by_cases heq : j = s.length
  · subst heq
    simp
  · have hne : (adv sb)^[j] p ≠ (adv sb)^[s.length] p := by
      unfold logSize at hlt
      rcases Nat.lt_or_gt_of_ne heq with hlo | hhi
      · exact Circular.iterate_next_ne hp hlo (by simp at hlt; omega)
      · exact (Circular.iterate_next_ne hp hhi (by omega)).symm
    rw [Function.update_of_ne hne, h j hj']
    rcases Nat.lt_or_gt_of_ne heq with hlo | hhi
    · rw [List.getElem_append_left hlo, List.getElem_append_left hlo]
    · obtain ⟨i, rfl⟩ : ∃ i, j = s.length + 1 + i := ⟨j - (s.length + 1), by omega⟩
      rw [List.getElem_append_right (by omega), List.getElem_append_right (by omega)]
      simp [show s.length + 1 + i - s.length = i + 1 by omega]

end Jbd
