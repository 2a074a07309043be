import OpenExt4.Journal.Recover
import OpenExt4.Lib.RedoLog

set_option autoImplicit false

/-! # The write-back batch

Sorting the batch by block, dropping the copies a later one replaces and writing runs of blocks
leaves what writing the batch in the order of arrival leaves. -/

namespace Jbd

open Bytes ByteDevice RedoLog

variable {bs : ℕ} {out : Outside} {b : ℕ} {batch ws : List (ℕ × Buf bs)} {s : Replay bs}

/-! ## The order of the writes -/

theorem apply_keepNewest (ws : List (ℕ × Buf bs)) (dev : ℕ → Buf bs) :
    Writes.apply (keepNewest ws) dev = Writes.apply ws dev := by
  induction ws using keepNewest.induct generalizing dev with
  | case1 => rfl
  | case2 w => rfl
  | case3 w v ws heq ih =>
      rw [keepNewest, if_pos heq, ih, Writes.apply_cons, Writes.apply_cons, Writes.apply_cons, heq,
        Function.update_idem]
  | case4 w v ws hne ih =>
      rw [keepNewest, if_neg hne, Writes.apply_cons, ih]
      rfl

theorem mem_of_mem_keepNewest {w : ℕ × Buf bs} (h : w ∈ keepNewest ws) : w ∈ ws := by
  induction ws using keepNewest.induct with
  | case1 => exact h
  | case2 v => exact h
  | case3 v v' ws heq ih =>
      rw [keepNewest, if_pos heq] at h
      exact List.mem_cons_of_mem _ (ih h)
  | case4 v v' ws hne ih =>
      rw [keepNewest, if_neg hne] at h
      rcases List.mem_cons.mp h with rfl | h
      · exact List.mem_cons_self ..
      · exact List.mem_cons_of_mem _ (ih h)

theorem jbdWbCmp_trans (a b c : (ℕ × Buf bs) × ℕ) (hab : jbdWbCmp a b = true)
    (hbc : jbdWbCmp b c = true) : jbdWbCmp a c = true := by
  unfold jbdWbCmp at *
  split at hab <;> split at hbc <;> split <;>
    simp only [decide_eq_true_eq] at hab hbc ⊢ <;> omega

theorem jbdWbCmp_total (a b : (ℕ × Buf bs) × ℕ) : (jbdWbCmp a b || jbdWbCmp b a) = true := by
  unfold jbdWbCmp
  split <;> split <;> simp only [Bool.or_eq_true, decide_eq_true_eq] <;> omega

/-- The sorted batch, with its indices. -/
def sortedBatch (batch : List (ℕ × Buf bs)) : List ((ℕ × Buf bs) × ℕ) :=
  batch.zipIdx.mergeSort jbdWbCmp

/-- Sorting leaves the copies of one block in the order of arrival. -/
theorem filter_sortedBatch (batch : List (ℕ × Buf bs)) (b : ℕ) :
    (sortedBatch batch).filter (fun e => e.1.1 = b) =
      batch.zipIdx.filter (fun e => e.1.1 = b) := by
  have hperm : (sortedBatch batch).Perm batch.zipIdx := List.mergeSort_perm ..
  have hsorted : ((sortedBatch batch).filter fun e => e.1.1 = b).Pairwise
      (fun e f => e.2 ≤ f.2) := by
    have hcmp := List.pairwise_mergeSort jbdWbCmp_trans jbdWbCmp_total batch.zipIdx
    rw [List.pairwise_filter]
    refine hcmp.imp fun {e f} hle he hf => ?_
    rw [decide_eq_true_eq] at he hf
    rw [jbdWbCmp, if_neg (by rw [he, hf]; exact fun h => h rfl), decide_eq_true_eq] at hle
    exact hle
  have hidx : (batch.zipIdx.filter fun e => e.1.1 = b).Pairwise (fun e f => e.2 ≤ f.2) := by
    refine List.Pairwise.filter _ ?_
    rw [← List.pairwise_map (f := Prod.snd) (R := (· ≤ ·)), List.zipIdx_map_snd]
    exact List.pairwise_le_range' 1
  refine List.Perm.eq_of_pairwise (fun e f he hf hef hfe => ?_) hsorted hidx (hperm.filter _)
  have hsame : e.2 = f.2 := Nat.le_antisymm hef hfe
  have he := List.mem_zipIdx_iff_getElem?.mp (hperm.subset (List.mem_of_mem_filter he))
  have hf := List.mem_zipIdx_iff_getElem?.mp (List.mem_of_mem_filter hf)
  rw [hsame, hf] at he
  exact Prod.ext (Option.some.inj he.symm) hsame

theorem writesTo_sortedBatch (batch : List (ℕ × Buf bs)) (b : ℕ) :
    writesTo b ((sortedBatch batch).map Prod.fst) = writesTo b batch := by
  have hfst : writesTo b (batch.zipIdx.map Prod.fst) = writesTo b batch := by
    rw [List.zipIdx_map_fst]
  rw [← hfst, writesTo, writesTo, List.filter_map, List.filter_map]
  exact congrArg (List.map Prod.fst) (filter_sortedBatch batch b)

/-- The order of the flush leaves what the order of arrival leaves. -/
theorem apply_writeOrder (batch : List (ℕ × Buf bs)) (dev : ℕ → Buf bs) :
    Writes.apply (writeOrder batch) dev = Writes.apply batch dev := by
  rw [writeOrder, apply_keepNewest]
  funext b
  exact apply_congr_writesTo (writesTo_sortedBatch batch b) dev

theorem mem_batch_of_mem_writeOrder {w : ℕ × Buf bs} (h : w ∈ writeOrder batch) : w ∈ batch := by
  obtain ⟨e, he, rfl⟩ := List.mem_map.mp (mem_of_mem_keepNewest h)
  have hmem : e ∈ batch.zipIdx := (List.mergeSort_perm ..).subset he
  exact List.mem_of_getElem? (List.mem_zipIdx_iff_getElem?.mp hmem)

/-! ## A run -/

/-- Each block follows on the one before. -/
def Consecutive (ws : List (ℕ × Buf bs)) : Prop := ws.IsChain fun w v => v.1 = w.1 + 1

/-- The contents a run puts at its `k`-th block. -/
def runData (run : List (ℕ × Buf bs)) (k : ℕ) : Buf bs := ((run[k]?).map Prod.snd).getD (zeros bs)

theorem put_run {w : ℕ × Buf bs} (h : Consecutive (w :: ws)) (dev : ℕ → Buf bs) :
    put dev w.1 (ws.length + 1) (runData (w :: ws)) (fun _ => true) =
      Writes.apply (w :: ws) dev := by
  induction ws generalizing w dev with
  | nil =>
      funext x
      rw [put, Writes.apply_cons, Writes.apply_nil]
      by_cases hx : x = w.1
      · rw [if_pos ⟨hx.ge, by simp [hx], rfl⟩, hx, Function.update_self, Nat.sub_self]
        rfl
      · rw [if_neg (by simp only [List.length_nil]; omega), Function.update_of_ne hx]
  | cons v ws ih =>
      rw [Consecutive, List.isChain_cons_cons] at h
      rw [Writes.apply_cons, ← ih h.2]
      funext x
      rw [put, put, h.1, List.length_cons]
      rcases Nat.lt_trichotomy x w.1 with hlt | rfl | hgt
      · rw [if_neg (by omega), if_neg (by omega), Function.update_of_ne (by omega)]
      · rw [if_pos ⟨le_rfl, by omega, rfl⟩, if_neg (by omega), Function.update_self, Nat.sub_self]
        rfl
      · by_cases hin : x < w.1 + 1 + (ws.length + 1)
        · rw [if_pos ⟨by omega, by omega, rfl⟩, if_pos ⟨by omega, by omega, rfl⟩]
          have hsub : x - w.1 = x - (w.1 + 1) + 1 := by omega
          rw [runData, hsub, List.getElem?_cons_succ]
          rfl
        · rw [if_neg (by omega), if_neg (by omega), Function.update_of_ne (by omega)]

/-- The blocks of a run lie from its first on. -/
theorem mem_run {w : ℕ × Buf bs} (h : Consecutive (w :: ws)) {x : ℕ} (hlo : w.1 ≤ x)
    (hhi : x < w.1 + (ws.length + 1)) : x ∈ (w :: ws).map Prod.fst := by
  induction ws generalizing w with
  | nil =>
      have hx : x = w.1 := by simp only [List.length_nil] at hhi; omega
      rw [hx]
      exact List.mem_cons_self ..
  | cons v ws ih =>
      rw [Consecutive, List.isChain_cons_cons] at h
      rw [List.length_cons] at hhi
      rw [List.map_cons]
      by_cases hx : x = w.1
      · rw [hx]
        exact List.mem_cons_self ..
      · exact List.mem_cons_of_mem _ (ih h.2 (by omega) (by omega))

theorem ext4BlocksSetDirect_ok {run : List (ℕ × Buf bs)} (h : Consecutive run)
    (hok : (ext4BlocksSetDirect out run s).1 = none) :
    (ext4BlocksSetDirect out run s).2.dev = Writes.apply run s.dev := by
  cases run with
  | nil => rfl
  | cons w ws =>
      obtain ⟨lba, data⟩ := w
      rw [← put_run h]
      unfold ext4BlocksSetDirect at hok ⊢
      cases hl : out.landing s.calls with
      | lands => rfl
      | fails e landed =>
          rw [hl] at hok
          exact absurd hok (Option.some_ne_none e)

theorem ext4BlocksSetDirect_frame {run : List (ℕ × Buf bs)} (h : Consecutive run)
    (hb : b ∉ run.map Prod.fst) : (ext4BlocksSetDirect out run s).2.dev b = s.dev b := by
  cases run with
  | nil => rfl
  | cons w ws =>
      obtain ⟨lba, data⟩ := w
      have hout : b < lba ∨ lba + (ws.length + 1) ≤ b := by
        by_contra hin
        exact hb (mem_run h (by omega) (by dsimp only; omega))
      exact writeAt_outside hout

/-! ## The flush -/

variable {runs : List (List (ℕ × Buf bs))}

theorem flushRuns_ok (h : ∀ run ∈ runs, Consecutive run)
    (hok : (flushRuns out runs s).1 = none) :
    (flushRuns out runs s).2.dev = Writes.apply runs.flatten s.dev := by
  induction runs generalizing s with
  | nil => rfl
  | cons run runs ih =>
      have hrun := h run (List.mem_cons_self ..)
      rw [flushRuns] at hok ⊢
      rcases hset : ext4BlocksSetDirect out run s with ⟨_ | e, s'⟩
      · have hdev := @ext4BlocksSetDirect_ok bs out s run hrun (by rw [hset])
        rw [hset] at hok hdev
        dsimp only at hok hdev ⊢
        rw [ih (fun r hr => h r (List.mem_cons_of_mem _ hr)) hok, hdev, List.flatten_cons,
          Writes.apply_append]
      · rw [hset] at hok
        exact absurd hok (Option.some_ne_none e)

theorem flushRuns_frame (h : ∀ run ∈ runs, Consecutive run)
    (hb : b ∉ runs.flatten.map Prod.fst) : (flushRuns out runs s).2.dev b = s.dev b := by
  induction runs generalizing s with
  | nil => rfl
  | cons run runs ih =>
      rw [List.flatten_cons, List.map_append, List.mem_append, not_or] at hb
      have hdev := @ext4BlocksSetDirect_frame bs out b s run (h run (List.mem_cons_self ..)) hb.1
      rw [flushRuns]
      rcases hset : ext4BlocksSetDirect out run s with ⟨_ | e, s'⟩
      · rw [hset] at hdev
        exact (ih (fun r hr => h r (List.mem_cons_of_mem _ hr)) hb.2).trans hdev
      · rw [hset] at hdev
        exact hdev

theorem consecutive_of_mem_writeRuns {run : List (ℕ × Buf bs)} (h : run ∈ writeRuns ws) :
    Consecutive run :=
  (List.isChain_of_mem_splitBy h).imp fun _ _ hnext => of_decide_eq_true hnext

/-- A flush that succeeds leaves what writing the batch in the order of arrival leaves. -/
theorem jbdReplayWbFlush_ok (hok : (jbdReplayWbFlush out batch s).1 = none) :
    (jbdReplayWbFlush out batch s).2.dev = Writes.apply batch s.dev := by
  unfold jbdReplayWbFlush at hok ⊢
  by_cases hnil : batch = []
  · rw [if_pos hnil, hnil]
    rfl
  · rw [if_neg hnil] at hok ⊢
    rcases hcall : s.call out with ⟨_ | e, s'⟩
    · rw [hcall] at hok
      have hdev : s'.dev = s.dev := by rw [show s' = (s.call out).2 by rw [hcall]]; rfl
      dsimp only at hok ⊢
      rw [flushRuns_ok (fun _ => consecutive_of_mem_writeRuns) hok, writeRuns,
        List.flatten_splitBy, apply_writeOrder, hdev]
    · rw [hcall] at hok
      exact absurd hok (Option.some_ne_none _)

/-- A flush leaves the blocks that are not in the batch alone, whether it fails or not. -/
theorem jbdReplayWbFlush_frame (hb : b ∉ batch.map Prod.fst) :
    (jbdReplayWbFlush out batch s).2.dev b = s.dev b := by
  unfold jbdReplayWbFlush
  by_cases hnil : batch = []
  · rw [if_pos hnil]
  · rw [if_neg hnil]
    rcases hcall : s.call out with ⟨_ | e, s'⟩
    · have hdev : s'.dev = s.dev := by rw [show s' = (s.call out).2 by rw [hcall]]; rfl
      have hout : b ∉ (writeRuns (writeOrder batch)).flatten.map Prod.fst := by
        rw [writeRuns, List.flatten_splitBy]
        intro hmem
        obtain ⟨w, hw, rfl⟩ := List.mem_map.mp hmem
        exact hb (List.mem_map_of_mem (mem_batch_of_mem_writeOrder hw))
      exact (flushRuns_frame (fun _ => consecutive_of_mem_writeRuns) hout).trans
        (congrFun hdev b)
    · rw [show s' = (s.call out).2 by rw [hcall]]
      rfl

end Jbd
