import OpenExt4.Journal.CommitFrame
import OpenExt4.Journal.RoundTrip
import OpenExt4.Journal.Redo

set_option autoImplicit false

/-! # What is committed is there after a crash

One commit after another lays its transaction on the log behind the ones before it. Whatever a
further commit has written when it is cut off, the log then has exactly the transactions that were
committed, or with its commit block that one as well, and recovery redoes them. -/

namespace Jbd

open Bytes ByteDevice RedoLog

variable {bs : ℕ} {σ : Type} {sb : JbdSb bs} {log : ℕ → Buf bs}
variable {start seq p i j n m fuel : ℕ} {recs recs' rs : List (Record bs)}
variable {blocks chunk : List (ℕ × Buf bs)} {lbas : List ℕ} {s : List (Buf bs)} {d : Buf bs}

/-! ## The records of a transaction -/

theorem walk_mono {record : ℕ → ℕ → Option (Record bs)} {next : ℕ → ℕ} {fuel' : ℕ}
    (h : walk record next start seq fuel p i = some recs) (hle : fuel ≤ fuel') :
    walk record next start seq fuel' p i = some recs := by
  induction fuel generalizing fuel' p i recs with
  | zero => cases h
  | succ fuel ih =>
      obtain ⟨fuel', rfl⟩ : ∃ f, fuel' = f + 1 := ⟨fuel' - 1, by omega⟩
      rw [walk] at h ⊢
      cases hrec : record p (idOf seq i) with
      | none =>
          rw [hrec] at h
          exact h
      | some r =>
          rw [hrec] at h
          dsimp only at h ⊢
          split at h
          · next hq =>
              rw [if_pos hq]
              exact h
          · next hq =>
              obtain ⟨rs, hrs, rfl⟩ := Option.map_eq_some_iff.mp h
              rw [if_neg hq, ih hrs (by omega)]
              rfl

/-- The `n` log blocks from `p` on read as `recs`, the first of transaction `i`, and leave
    transaction `j` due. -/
structure Reads (sb : JbdSb bs) (log : ℕ → Buf bs) (start seq p i : ℕ) (recs : List (Record bs))
    (n j : ℕ) : Prop where
  walk : ∀ fuel rs,
    walk (recordAt sb log) (adv sb) start seq fuel ((adv sb)^[n] p) j = some rs →
      walk (recordAt sb log) (adv sb) start seq (recs.length + fuel) p i = some (recs ++ rs)
  length : recs.length ≤ n

theorem Reads.nil : Reads sb log start seq p i [] 0 i :=
  ⟨fun fuel rs h => by rwa [List.length_nil, Nat.zero_add], le_rfl⟩

theorem Reads.trans {k : ℕ} (h : Reads sb log start seq p i recs n j)
    (h' : Reads sb log start seq ((adv sb)^[n] p) j recs' m k) :
    Reads sb log start seq p i (recs ++ recs') (n + m) k := by
  refine ⟨fun fuel rs hrs => ?_, ?_⟩
  · rw [Nat.add_comm n, Function.iterate_add_apply] at hrs
    rw [List.length_append, Nat.add_assoc, List.append_assoc]
    exact h.walk _ _ (h'.walk _ _ hrs)
  · rw [List.length_append]
    exact Nat.add_le_add h.length h'.length

/-- One record. -/
theorem Reads.single {r : Record bs} (hrec : recordAt sb log p (idOf seq i) = some r)
    (hround : (adv sb)^[r.span] p ≠ start) :
    Reads sb log start seq p i [r] r.span (r.next i) := by
  refine ⟨fun fuel rs hrs => ?_, ?_⟩
  · rw [List.length_singleton, Nat.add_comm, Jbd.walk, hrec]
    dsimp only
    rw [if_neg hround, hrs]
    rfl
  · cases r with
    | blocks ws => exact Nat.le_add_left 1 ws.length
    | revokes lbas => exact le_rfl
    | commit => exact le_rfl

/-- No block from `p` on, up to the `n`-th, is the start of the log. -/
def NoRound (sb : JbdSb bs) (start p n : ℕ) : Prop :=
  ∀ k, 0 < k → k ≤ n → (adv sb)^[k] p ≠ start

theorem NoRound.left (h : NoRound sb start p (n + m)) : NoRound sb start p n :=
  fun k hpos hk => h k hpos (by omega)

theorem NoRound.right (h : NoRound sb start p (n + m)) : NoRound sb start ((adv sb)^[n] p) m := by
  intro k hpos hk
  rw [← Function.iterate_add_apply]
  exact h (k + n) (by omega) (by omega)

/-- What is read back behind a descriptor block. -/
theorem images_chunk {tags : List TagInfo}
    (htags : tags.map (fun t => (t.block, t.isEscape)) = chunk.map tagKey)
    (hlog : OnLog sb log (adv sb p) (chunk.map logImage)) : images sb log p tags = chunk := by
  induction chunk generalizing tags p with
  | nil =>
      obtain rfl := List.map_eq_nil_iff.mp htags
      rfl
  | cons w rest ih =>
      cases tags with
      | nil => cases htags
      | cons t tags =>
          rw [List.map_cons, List.map_cons, List.cons.injEq] at htags
          obtain ⟨hkey, htags⟩ := htags
          obtain ⟨hblock, hescape⟩ := Prod.mk.inj hkey
          rw [List.map_cons, onLog_cons] at hlog
          rw [images, ih htags hlog.2, hlog.1, hblock, hescape, logImage, unescapeData_escapeData]

/-- The data part of a transaction. -/
theorem DescStream.reads (h : DescStream sb (idOf seq i) blocks s) (hlog : OnLog sb log p s)
    (hround : NoRound sb start p s.length) :
    ∃ recs, Reads sb log start seq p i recs s.length i ∧ ∀ rs, transactions (recs ++ rs) =
      (transactions rs).modifyHead fun t => { t with writes := blocks ++ t.writes } := by
  induction h generalizing p with
  | nil =>
      refine ⟨[], Reads.nil, fun rs => ?_⟩
      exact (congrFun List.modifyHead_id _).symm
  | @cons chunk d blocks stream hd _ ih =>
      have hlen : (d :: chunk.map logImage ++ stream).length =
          chunk.length + 1 + stream.length := by
        rw [List.length_append, List.length_cons, List.length_map]
      rw [hlen] at hround
      rw [onLog_append, onLog_cons, List.length_cons, List.length_map] at hlog
      obtain ⟨⟨hdesc, himages⟩, hrest⟩ := hlog
      -- the chunk is read back behind its descriptor block
      have hrec : recordAt sb log p (idOf seq i) = some (.blocks chunk) := by
        rw [recordAt_descriptor (hdesc ▸ hd.header) (hdesc ▸ hd.csum), hdesc,
          images_chunk hd.tags himages]
      obtain ⟨recs, hreads, htrans⟩ := ih hrest hround.right
      refine ⟨.blocks chunk :: recs, ?_, fun rs => ?_⟩
      · rw [hlen]
        exact (Reads.single hrec (hround _ (Nat.succ_pos _) (Nat.le_add_right _ _))).trans hreads
      · rw [List.cons_append, transactions, htrans, List.modifyHead_modifyHead]
        congr 1
        funext t
        exact congrArg (fun ws => (⟨ws, t.revokes⟩ : Trans ℕ (Buf bs)))
          (List.append_assoc chunk blocks t.writes).symm

/-- The revoke part of a transaction. -/
theorem RevokeStream.reads (h : RevokeStream sb (idOf seq i) lbas s) (hlog : OnLog sb log p s)
    (hround : NoRound sb start p s.length) :
    ∃ recs, Reads sb log start seq p i recs s.length i ∧ ∀ rs, transactions (recs ++ rs) =
      (transactions rs).modifyHead fun t => { t with revokes := lbas ++ t.revokes } := by
  induction h generalizing p with
  | nil =>
      refine ⟨[], Reads.nil, fun rs => ?_⟩
      exact (congrFun List.modifyHead_id _).symm
  | @cons chunk d lbas stream hd _ ih =>
      rw [List.length_cons, Nat.add_comm] at hround
      rw [onLog_cons] at hlog
      obtain ⟨hblock, hrest⟩ := hlog
      have hrec : recordAt sb log p (idOf seq i) = some (.revokes chunk) := by
        rw [recordAt_revoke (hblock ▸ hd.header) (hblock ▸ hd.csum), hblock, hd.entries]
      obtain ⟨recs, hreads, htrans⟩ := ih hrest hround.right
      refine ⟨.revokes chunk :: recs, ?_, fun rs => ?_⟩
      · rw [List.length_cons, Nat.add_comm]
        exact (Reads.single hrec (hround _ Nat.one_pos (Nat.le_add_right _ _))).trans hreads
      · rw [List.cons_append, transactions, htrans, List.modifyHead_modifyHead]
        congr 1
        funext t
        exact congrArg (fun ls => (⟨t.writes, ls⟩ : Trans ℕ (Buf bs)))
          (List.append_assoc chunk lbas t.revokes).symm

/-- A whole transaction. -/
theorem TransStream.reads (h : TransStream sb (idOf seq i) blocks lbas s) (hlog : OnLog sb log p s)
    (hround : NoRound sb start p s.length) :
    ∃ recs, Reads sb log start seq p i recs s.length (i + 1) ∧
      ∀ rs, transactions (recs ++ rs) = ⟨blocks, lbas⟩ :: transactions rs := by
  obtain ⟨s₁, s₂, c, hdesc, hrevoke, hcommit, rfl⟩ := h
  rw [onLog_append, onLog_append, onLog_cons] at hlog
  obtain ⟨⟨hlog₁, hlog₂⟩, hc, -⟩ := hlog
  rw [List.length_append, List.length_append, List.length_singleton] at hround
  obtain ⟨recs₁, hreads₁, htrans₁⟩ := hdesc.reads hlog₁ hround.left.left
  obtain ⟨recs₂, hreads₂, htrans₂⟩ := hrevoke.reads hlog₂ hround.left.right
  rw [List.length_append] at hc
  have hrec : recordAt sb log ((adv sb)^[s₁.length + s₂.length] p) (idOf seq i) = some .commit :=
    recordAt_commit (hc ▸ hcommit.header) (hc ▸ hcommit.csum)
  refine ⟨recs₁ ++ recs₂ ++ [.commit], ?_, fun rs => ?_⟩
  · rw [List.length_append, List.length_append, List.length_singleton]
    exact (hreads₁.trans hreads₂).trans (Reads.single hrec (hround.right 1 Nat.one_pos le_rfl))
  · rw [List.append_assoc, List.append_assoc, htrans₁, htrans₂, List.singleton_append, transactions,
      List.modifyHead_cons, List.modifyHead_cons, List.append_nil, List.append_nil]

/-! ## A run of commits -/

/-- What a transaction says. -/
def JbdTrans.content (trans : JbdTrans bs) : Trans ℕ (Buf bs) :=
  ⟨loggedBlocks trans.bufQueue, trans.revokeRoot⟩

/-- The blocks of the transactions `ts`, the first of which has the id `seq`. -/
inductive RunStream (sb : JbdSb bs) (seq : ℕ) : List (JbdTrans bs) → List (Buf bs) → Prop
  | nil : RunStream sb seq [] []
  | snoc {ts : List (JbdTrans bs)} {trans : JbdTrans bs} {s t : List (Buf bs)}
      (hrun : RunStream sb seq ts s)
      (ht : TransStream sb (idOf seq ts.length) (loggedBlocks trans.bufQueue) trans.revokeRoot t) :
      RunStream sb seq (ts ++ [trans]) (s ++ t)

variable {cp : Checkpoint sb σ} {st₀ st : CommitState bs σ} {ts : List (JbdTrans bs)}

/-- The transactions of a run are read back in their order. -/
theorem RunStream.reads (h : RunStream sb seq ts s) (hlog : OnLog sb log start s)
    (hround : NoRound sb start start s.length) :
    ∃ recs, Reads sb log start seq start 0 recs s.length ts.length ∧
      ∀ rs, transactions (recs ++ rs) = ts.map JbdTrans.content ++ transactions rs := by
  induction h with
  | nil => exact ⟨[], Reads.nil, fun rs => rfl⟩
  | @snoc ts trans s t _ ht ih =>
      rw [onLog_append] at hlog
      rw [List.length_append] at hround
      obtain ⟨recs, hreads, htrans⟩ := ih hlog.1 hround.left
      obtain ⟨recs', hreads', htrans'⟩ := ht.reads hlog.2 hround.right
      refine ⟨recs ++ recs', ?_, fun rs => ?_⟩
      · rw [List.length_append, List.length_append]
        exact hreads.trans hreads'
      · rw [List.append_assoc, htrans, htrans', List.map_append, List.append_assoc]
        rfl

/-- A commit from `st` to `st'`, with the id `id`. What happens on the way to `st₁`, where it
    starts, leaves the log and its head alone; and the tail is still at `tail`. -/
structure CommitStep (cp : Checkpoint sb σ) (env : CommitEnv bs) (id tail : ℕ)
    (st st₁ : CommitState bs σ) (trans : JbdTrans bs) (st' : CommitState bs σ) : Prop where
  log : st₁.log = st.log
  last : st₁.journal.last = st.journal.last
  start : CommitStart cp st₁
  id : trans.transId = id
  cnt : trans.dataCnt = trans.bufQueue.length
  blocks : ∀ b ∈ trans.bufQueue, FitsTag sb b.lba
  lbas : ∀ lba ∈ trans.revokeRoot, FitsTag sb lba
  writes : writeTrans cp env trans st₁ = .ok st'
  tail : st'.journal.start = tail

/-- A run of commits from `st₀` to `st`, of transactions with consecutive ids from `seq` on: `n`
    blocks of the log. The tail stays where the run starts: none of its transactions is given up
    yet. -/
inductive CommitRun (cp : Checkpoint sb σ) (seq : ℕ) (st₀ : CommitState bs σ) :
    List (JbdTrans bs) → ℕ → CommitState bs σ → Prop
  | start : CommitRun cp seq st₀ [] 0 st₀
  | commit {ts : List (JbdTrans bs)} {n : ℕ} {st st₁ st' : CommitState bs σ} {env : CommitEnv bs}
      {trans : JbdTrans bs} (hrun : CommitRun cp seq st₀ ts n st)
      (hstep : CommitStep cp env (idOf seq ts.length) st₀.journal.last st st₁ trans st') :
      CommitRun cp seq st₀ (ts ++ [trans]) (n + st'.allocBlocks) st'

/-- What a run has laid down on the log, which is less than a round. -/
structure LaidDown (seq : ℕ) (st₀ : CommitState bs σ) (sb : JbdSb bs) (ts : List (JbdTrans bs))
    (n : ℕ) (st : CommitState bs σ) : Prop where
  room : n < logSize sb
  last : st.journal.last = (adv sb)^[n] st₀.journal.last
  stream : ∃ s, RunStream sb seq ts s ∧ s.length = n ∧ OnLog sb st.log st₀.journal.last s

/-- Less than a round does not lead back. -/
theorem iterate_adv_ne_self {k : ℕ} (hp : InLog sb p) (hpos : 0 < k) (hk : k < logSize sb) :
    (adv sb)^[k] p ≠ p :=
  (Circular.iterate_next_ne hp hpos (by unfold logSize at hk; omega)).symm

/-- From a head short of a round the blocks up to the tail make the round full. -/
theorem steps_to_tail (hp : InLog sb p) (hn : n < logSize sb) (hm : m ≤ logSize sb) (hpos : 0 < m)
    (h : (adv sb)^[m] ((adv sb)^[n] p) = p) : m + n = logSize sb := by
  rw [← Function.iterate_add_apply] at h
  rcases Nat.lt_trichotomy (m + n) (logSize sb) with hlt | heq | hgt
  · exact absurd h (iterate_adv_ne_self hp (by omega) hlt)
  · exact heq
  · have hback : (adv sb)^[m + n - logSize sb] p = p := by
      have hround : (adv sb)^[logSize sb] p = p := Circular.iterate_size hp
      rw [← Nat.sub_add_cancel hgt.le, Function.iterate_add_apply, hround] at h
      exact h
    exact absurd hback (iterate_adv_ne_self hp (by omega) (by omega))

/-- What a commit behind a run adds to it, and where. -/
structure LaidNext (sb : JbdSb bs) (id head : ℕ) (st : CommitState bs σ) (trans : JbdTrans bs)
    (st' : CommitState bs σ) : Prop where
  last : st'.journal.last = (adv sb)^[st'.allocBlocks] head
  stream : ∃ t, TransStream sb id (loggedBlocks trans.bufQueue) trans.revokeRoot t ∧
    st'.allocBlocks = t.length ∧ OnLog sb st'.log head t
  frame : ∀ q, (∀ k < st'.allocBlocks, (adv sb)^[k] head ≠ q) → st'.log q = st.log q

variable {env : CommitEnv bs} {st₁ st' : CommitState bs σ} {trans : JbdTrans bs}

/-- A commit keeps off the run before it, since the head does not run over the tail. -/
theorem CommitStep.laidNext {id : ℕ} (h : CommitStep cp env id p st st₁ trans st')
    (hid : id < 2 ^ 32) (hp : InLog sb p) (hn : n < logSize sb)
    (hhead : st.journal.last = (adv sb)^[n] p) :
    n + st'.allocBlocks < logSize sb ∧ LaidNext sb id ((adv sb)^[n] p) st trans st' := by
  obtain ⟨t, ht, hont, htlen, hplacing, -⟩ :=
    writeTrans_laid (h.id ▸ hid) h.cnt h.blocks h.lbas h.start h.writes
  have hhead₁ : st₁.journal.last = (adv sb)^[n] p := h.last.trans hhead
  have hframe : ∀ q, (∀ k < st'.allocBlocks, (adv sb)^[k] st₁.journal.last ≠ q) →
      st'.log q = st₁.log q := fun q hq => writeTrans_frame h.start h.writes hq
  rw [hhead₁, h.log] at hframe
  rw [hhead₁] at hont
  refine ⟨?_, hhead₁ ▸ hplacing.last, ⟨t, h.id ▸ ht, htlen, hont⟩, hframe⟩
  -- the tail is where the run starts, and the head stays short of it
  obtain ⟨m, hlt, hle, hm⟩ := hplacing.tail
  rw [h.tail, hhead₁] at hm
  have := steps_to_tail hp hn hle (by omega) hm.symm
  omega

/-- The blocks of a run of `n` blocks are not among the `m` behind it. -/
theorem run_apart {k : ℕ} (hp : InLog sb p) (hroom : n + m < logSize sb) (hk : k < n) :
    ∀ j < m, (adv sb)^[j] ((adv sb)^[n] p) ≠ (adv sb)^[k] p := by
  intro j hj
  rw [← Function.iterate_add_apply]
  unfold logSize at hroom
  exact (Circular.iterate_next_ne hp (by omega) (by omega)).symm

theorem idOf_lt (seq i : ℕ) : idOf seq i < 2 ^ 32 := Nat.mod_lt _ (by decide)

/-- **A commit leaves what is laid down before it alone.** -/
theorem CommitRun.laidDown (h : CommitRun cp seq st₀ ts n st) (hp : InLog sb st₀.journal.last) :
    LaidDown seq st₀ sb ts n st := by
  induction h with
  | start =>
      refine ⟨?_, rfl, [], RunStream.nil, rfl, onLog_nil⟩
      have := sb.first_lt
      unfold logSize
      omega
  | @commit ts n st st₁ st' env trans _ hstep ih =>
      obtain ⟨hroom, hhead, s, hs, hlen, hon⟩ := ih
      obtain ⟨hroom', hlast, ⟨t, ht, htlen, hont⟩, hframe⟩ :=
        hstep.laidNext (idOf_lt seq ts.length) hp hroom hhead
      refine ⟨hroom', ?_, s ++ t, hs.snoc ht, ?_, onLog_append.mpr ⟨fun k hk => ?_, hlen ▸ hont⟩⟩
      · rw [hlast, ← Function.iterate_add_apply, Nat.add_comm]
      · rw [List.length_append, hlen, htlen]
      · rw [hframe _ (run_apart hp hroom' (hlen ▸ hk))]
        exact hon k hk

/-! ## The crash -/

variable {place : ℕ → ℕ} {disk : ℕ → Buf bs}

/-- Records without a commit say nothing. -/
theorem transactions_of_commits (h : commits recs = 0) : transactions recs = [] :=
  List.length_eq_zero_iff.mp h

/-- From `p` on, where transaction `i` is due, the log ends without a commit. -/
def NoCommit (sb : JbdSb bs) (log : ℕ → Buf bs) (start seq fuel p i : ℕ) : Prop :=
  ∃ rs, walk (recordAt sb log) (adv sb) start seq fuel p i = some rs ∧ commits rs = 0

/-- What a crash finds behind a run of commits: the blocks of the run are on the disk, and whatever
    follows them there has no commit block of the next transaction. -/
structure CutOff (sb : JbdSb bs) (place : ℕ → ℕ) (disk : ℕ → Buf bs) (seq start : ℕ)
    (st : CommitState bs σ) (count n fuel : ℕ) : Prop where
  kept : ∀ k < n, disk (place ((adv sb)^[k] start)) = st.log ((adv sb)^[k] start)
  rest : NoCommit sb (fun p => disk (place p)) start seq fuel ((adv sb)^[n] start) count

/-- The blocks of the log are none that the transactions log, nor the superblock's. -/
def LogApart (place : ℕ → ℕ) (ts : List (JbdTrans bs)) : Prop := ∀ p,
  place p ≠ superblockLba bs ∧
    ∀ trans ∈ ts, place p ∉ (loggedBlocks trans.bufQueue).map Prod.fst

theorem LogApart.untouched (h : LogApart place ts) (p : ℕ) :
    ¬ Touched bs (ts.map JbdTrans.content) (place p) := by
  rintro (hredo | hsuper)
  · refine hredo (redo_eq_none fun t ht => ?_)
    obtain ⟨trans, htrans, rfl⟩ := List.mem_map.mp ht
    exact (h p).2 trans htrans
  · exact (h p).1 hsuper

/-- The log has the transactions of the run. -/
theorem CommitRun.logHas (hrun : CommitRun cp seq st₀ ts n st) (hfirst : 0 < sb.first)
    (hhead : InLog sb st₀.journal.last) (hseq : seq < 2 ^ 32) (hcount : ts.length < 2 ^ 31)
    (hcut : CutOff sb place disk seq st₀.journal.last st ts.length n fuel)
    (hplace : LogApart place ts) :
    ∃ recs, transactions recs = ts.map JbdTrans.content ∧
      LogHas sb place disk (n + fuel) ⟨st₀.journal.last, seq⟩ recs := by
  obtain ⟨hroom, -, stream, hstream, hlen, hon⟩ := hrun.laidDown hhead
  obtain ⟨rs, hrs, hnone⟩ := hcut.rest
  have hdisk : OnLog sb (fun p => disk (place p)) st₀.journal.last stream := fun k hk =>
    (hcut.kept k (hlen ▸ hk)).trans (hon k hk)
  have hround : NoRound sb st₀.journal.last st₀.journal.last stream.length := fun k hpos hk =>
    iterate_adv_ne_self hhead hpos (by omega)
  obtain ⟨recs, hreads, htrans⟩ := hstream.reads hdisk hround
  have hcontent : transactions (recs ++ rs) = ts.map JbdTrans.content := by
    rw [htrans, transactions_of_commits hnone, List.append_nil]
  refine ⟨recs ++ rs, hcontent, ?_, inLog_ne_zero hfirst hhead, hseq, ?_, fun p => ?_⟩
  · rw [hlen] at hreads
    exact walk_mono (hreads.walk fuel rs hrs) (Nat.add_le_add_right hreads.length fuel)
  · rw [commits, hcontent, List.length_map]
    exact hcount
  · rw [hcontent]
    exact hplace.untouched p

/-- **What is committed is there after a crash.** Once a run of commits is on the disk, and however
    far a further commit got, the log has exactly the transactions of the run; and whatever
    recoveries failed or were cut short since, the next one that succeeds leaves each block as the
    last transaction that has something for it says, and as it was where none has. -/
theorem commitRun_survives (cp : Checkpoint sb σ) (seq fuel : ℕ) (st₀ st : CommitState bs σ)
    (ts : List (JbdTrans bs)) (n : ℕ) (place : ℕ → ℕ) (disk : ℕ → Buf bs)
    (hfirst : 0 < sb.first) (hhead : InLog sb st₀.journal.last)
    (hrun : CommitRun cp seq st₀ ts n st) (hseq : seq < 2 ^ 32) (hcount : ts.length < 2 ^ 31)
    (hcut : CutOff sb place disk seq st₀.journal.last st ts.length n fuel)
    (hplace : LogApart place ts) :
    ∃ recs, transactions recs = ts.map JbdTrans.content ∧
      ∀ t s out, Mounted sb place disk (n + fuel) ⟨st₀.journal.last, seq⟩ recs t s →
        ∃ r t' s', jbdRecover sb place out (n + fuel) t s = some (r, t', s') ∧
          (r = none → t'.start = 0 ∧ Redone (ts.map JbdTrans.content) disk s'.dev) := by
  obtain ⟨recs, hcontent, hlog⟩ := hrun.logHas hfirst hhead hseq hcount hcut hplace
  refine ⟨recs, hcontent, fun t s out hmounted => ?_⟩
  have hrec := hmounted.recoverable hlog
  obtain ⟨r, t', s', hres, hdone, -⟩ := hrec.recovers hlog out
  exact ⟨r, t', s', hres, fun hr => ⟨(hdone hr).1, hcontent ▸ (hdone hr).2⟩⟩

/-! ## A commit is atomic -/

/-- What the disk has of the log when a commit is cut off that takes the `m` blocks from `head` on:
    each block is as it was before or as written, and the commit block, the last one, does not
    overtake the others, from which a barrier parts it. -/
structure Torn (sb : JbdSb bs) (head m : ℕ) (before written log : ℕ → Buf bs) : Prop where
  block : ∀ p, InLog sb p → log p = before p ∨ log p = written p
  order : log ((adv sb)^[m - 1] head) = before ((adv sb)^[m - 1] head) ∨
    ∀ p, InLog sb p → log p = written p

/-- There is no record where a block is the same that is none. -/
theorem recordAt_none_congr {log' : ℕ → Buf bs} {id : ℕ} (h : log p = log' p)
    (hnone : recordAt sb log' p id = none) : recordAt sb log p id = none := by
  unfold recordAt at hnone ⊢
  rw [h]
  dsimp only at hnone ⊢
  split_ifs at hnone ⊢ <;> rfl

theorem NoCommit.mono {fuel' : ℕ} (h : NoCommit sb log start seq fuel p i) (hle : fuel ≤ fuel') :
    NoCommit sb log start seq fuel' p i := by
  obtain ⟨rs, hrs, hnone⟩ := h
  exact ⟨rs, walk_mono hrs hle, hnone⟩

theorem NoCommit.of_none (h : recordAt sb log p (idOf seq i) = none) :
    NoCommit sb log start seq 1 p i := by
  refine ⟨[], ?_, rfl⟩
  rw [walk, h]

/-- A record more, of the same transaction. -/
theorem NoCommit.record {r : Record bs} (hrec : recordAt sb log p (idOf seq i) = some r)
    (hnext : r.next i = i) (hround : (adv sb)^[r.span] p ≠ start)
    (h : NoCommit sb log start seq fuel ((adv sb)^[r.span] p) i) :
    NoCommit sb log start seq (fuel + 1) p i := by
  obtain ⟨rs, hrs, hnone⟩ := h
  refine ⟨r :: rs, ?_, ?_⟩
  · rw [walk, hrec]
    dsimp only
    rw [if_neg hround, hnext, hrs]
    rfl
  · have hcommits := commits_cons r rs i
    omega

/-- The blocks `s` stand on the log from `p` on, but for some that have no record of transaction
    `id` in their places. -/
def PartlyOn (sb : JbdSb bs) (log : ℕ → Buf bs) (id p : ℕ) (s : List (Buf bs)) : Prop :=
  ∀ k (h : k < s.length),
    log ((adv sb)^[k] p) = s[k] ∨ recordAt sb log ((adv sb)^[k] p) id = none

theorem PartlyOn.append {id : ℕ} {t : List (Buf bs)} (h : PartlyOn sb log id p (s ++ t)) :
    PartlyOn sb log id p s ∧ PartlyOn sb log id ((adv sb)^[s.length] p) t := by
  constructor
  · intro k hk
    have hsome := h k (by rw [List.length_append]; omega)
    rw [List.getElem_append_left hk] at hsome
    exact hsome
  · intro k hk
    have hsome := h (k + s.length) (by rw [List.length_append]; omega)
    rw [Function.iterate_add_apply, List.getElem_append_right (Nat.le_add_left _ _)] at hsome
    simpa only [Nat.add_sub_cancel] using hsome

theorem PartlyOn.head {id : ℕ} {b : Buf bs} (h : PartlyOn sb log id p (b :: s)) :
    log p = b ∨ recordAt sb log p id = none :=
  h 0 (Nat.succ_pos _)

/-- The data part of a transaction, not all of it on the disk. -/
theorem DescStream.partly (h : DescStream sb (idOf seq i) blocks s)
    (hon : PartlyOn sb log (idOf seq i) p s) (hround : NoRound sb start p s.length)
    (hpos : 0 < fuel) (hrest : NoCommit sb log start seq fuel ((adv sb)^[s.length] p) i) :
    NoCommit sb log start seq (s.length + fuel) p i := by
  induction h generalizing p with
  | nil =>
      rw [List.length_nil, Nat.zero_add]
      exact hrest
  | @cons chunk d blocks stream hd _ ih =>
      have hlen : (d :: chunk.map logImage).length = chunk.length + 1 := by
        rw [List.length_cons, List.length_map]
      obtain ⟨hfirst, hmore⟩ := hon.append
      rw [List.length_append, hlen] at hround hrest ⊢
      rw [hlen] at hmore
      rcases hfirst.head with hdesc | hnone
      · have hrec := @recordAt_descriptor bs sb log p (idOf seq i) (hdesc ▸ hd.header)
          (hdesc ▸ hd.csum)
        -- the copies behind it may be anything: they are stepped over
        have hspan : (Record.blocks (images sb log p (descriptorTags sb (log p)))).span =
            chunk.length + 1 := by
          have htags := congrArg List.length hd.tags
          rw [List.length_map, List.length_map] at htags
          rw [span_blocks, hdesc, htags]
        have hbehind := ih hmore hround.right (by
          rw [← Function.iterate_add_apply, Nat.add_comm stream.length]
          exact hrest)
        rw [← hspan] at hbehind
        refine (NoCommit.record hrec rfl ?_ hbehind).mono (by omega)
        rw [hspan]
        exact hround _ (Nat.succ_pos _) (Nat.le_add_right _ _)
      · exact (NoCommit.of_none hnone).mono (by omega)

/-- The revoke part of a transaction, not all of it on the disk. -/
theorem RevokeStream.partly (h : RevokeStream sb (idOf seq i) lbas s)
    (hon : PartlyOn sb log (idOf seq i) p s) (hround : NoRound sb start p s.length)
    (hpos : 0 < fuel) (hrest : NoCommit sb log start seq fuel ((adv sb)^[s.length] p) i) :
    NoCommit sb log start seq (s.length + fuel) p i := by
  induction h generalizing p with
  | nil =>
      rw [List.length_nil, Nat.zero_add]
      exact hrest
  | @cons chunk d lbas stream hd _ ih =>
      obtain ⟨hfirst, hmore⟩ := PartlyOn.append (s := [d]) hon
      rw [List.length_cons, Nat.add_comm stream.length] at hround hrest ⊢
      rcases hfirst.head with hblock | hnone
      · have hrec := @recordAt_revoke bs sb log p (idOf seq i) (hblock ▸ hd.header)
          (hblock ▸ hd.csum)
        have hbehind := ih hmore hround.right (by
          rw [List.length_singleton, ← Function.iterate_add_apply, Nat.add_comm stream.length]
          exact hrest)
        refine (NoCommit.record hrec rfl ?_ hbehind).mono (by omega)
        exact hround _ Nat.one_pos (Nat.le_add_right _ _)
      · exact (NoCommit.of_none hnone).mono (by omega)

/-- **A transaction whose commit block is not on the disk** says nothing, whatever else of it is. -/
theorem TransStream.partly (h : TransStream sb (idOf seq i) blocks lbas s)
    (hon : PartlyOn sb log (idOf seq i) p s)
    (hlast : recordAt sb log ((adv sb)^[s.length - 1] p) (idOf seq i) = none)
    (hround : NoRound sb start p s.length) : NoCommit sb log start seq s.length p i := by
  obtain ⟨s₁, s₂, c, hdesc, hrevoke, -, rfl⟩ := h
  have hlen : (s₁ ++ s₂ ++ [c]).length = s₁.length + (s₂.length + 1) := by
    rw [List.length_append, List.length_append, List.length_singleton, Nat.add_assoc]
  obtain ⟨hon', -⟩ := hon.append
  obtain ⟨hon₁, hon₂⟩ := hon'.append
  rw [hlen] at hlast hround ⊢
  rw [← Nat.add_assoc, Nat.add_sub_cancel, Nat.add_comm s₁.length, Function.iterate_add_apply]
    at hlast
  refine hdesc.partly hon₁ hround.left (Nat.succ_pos _) ?_
  exact hrevoke.partly hon₂ hround.right.left Nat.one_pos (NoCommit.of_none hlast)

/-- **A commit is atomic.** When a commit behind a run is cut off, the log has the transactions of
    the run, and that of the commit as a whole or not at all; it has it if all of its blocks are
    written. The next recovery that succeeds redoes just these. Nothing else on the log may pass
    for a record of this transaction or the next. -/
theorem commit_atomic (cp : Checkpoint sb σ) (env : CommitEnv bs) (seq : ℕ)
    (st₀ st st₁ st' : CommitState bs σ) (ts : List (JbdTrans bs)) (trans : JbdTrans bs) (n : ℕ)
    (place : ℕ → ℕ) (disk : ℕ → Buf bs) (hfirst : 0 < sb.first)
    (hhead : InLog sb st₀.journal.last) (hrun : CommitRun cp seq st₀ ts n st)
    (hstep : CommitStep cp env (idOf seq ts.length) st₀.journal.last st st₁ trans st')
    (hseq : seq < 2 ^ 32) (hcount : ts.length + 1 < 2 ^ 31)
    (htorn : Torn sb ((adv sb)^[n] st₀.journal.last) st'.allocBlocks st.log st'.log
      fun p => disk (place p))
    (hstale : ∀ k, n ≤ k → k < logSize sb → ∀ i ∈ [ts.length, ts.length + 1],
      recordAt sb st.log ((adv sb)^[k] st₀.journal.last) (idOf seq i) = none)
    (hplace : LogApart place (ts ++ [trans])) :
    ∃ ts', (ts' = ts ∨ ts' = ts ++ [trans]) ∧
      ((∀ p, InLog sb p → disk (place p) = st'.log p) → ts' = ts ++ [trans]) ∧
      ∃ recs, transactions recs = ts'.map JbdTrans.content ∧
        ∀ t s out, Mounted sb place disk (n + (st'.allocBlocks + 1)) ⟨st₀.journal.last, seq⟩ recs
            t s →
          ∃ r t' s', jbdRecover sb place out (n + (st'.allocBlocks + 1)) t s = some (r, t', s') ∧
            (r = none → t'.start = 0 ∧ Redone (ts'.map JbdTrans.content) disk s'.dev) := by
  obtain ⟨hroom, hlast, -⟩ := hrun.laidDown hhead
  obtain ⟨hroom', -, ⟨stream, hstream, hlen, hon⟩, hframe⟩ :=
    hstep.laidNext (idOf_lt seq ts.length) hhead hroom hlast
  suffices hlog : ∃ ts', (ts' = ts ∨ ts' = ts ++ [trans]) ∧
      ((∀ p, InLog sb p → disk (place p) = st'.log p) → ts' = ts ++ [trans]) ∧
      ∃ recs, transactions recs = ts'.map JbdTrans.content ∧
        LogHas sb place disk (n + (st'.allocBlocks + 1)) ⟨st₀.journal.last, seq⟩ recs by
    obtain ⟨ts', hcase, hall, recs, hcontent, hlog⟩ := hlog
    refine ⟨ts', hcase, hall, recs, hcontent, fun t s out hmounted => ?_⟩
    have hrec := hmounted.recoverable hlog
    obtain ⟨r, t', s', hres, hdone, -⟩ := hrec.recovers hlog out
    exact ⟨r, t', s', hres, fun hr => ⟨(hdone hr).1, hcontent ▸ (hdone hr).2⟩⟩
  by_cases hall : ∀ p, InLog sb p → disk (place p) = st'.log p
  · have hcount' : (ts ++ [trans]).length = ts.length + 1 := by
      rw [List.length_append, List.length_singleton]
    have hnone : recordAt sb (fun p => disk (place p))
        ((adv sb)^[n + st'.allocBlocks] st₀.journal.last) (idOf seq (ts.length + 1)) = none := by
      refine recordAt_none_congr ((hall _ (hhead.iterate _)).trans (hframe _ fun k hk => ?_))
        (hstale _ (Nat.le_add_right _ _) hroom' _ (by simp))
      rw [← Function.iterate_add_apply]
      unfold logSize at hroom'
      exact Circular.iterate_next_ne hhead (by omega) (by omega)
    refine ⟨ts ++ [trans], .inr rfl, fun _ => rfl, ?_⟩
    rw [← Nat.add_assoc]
    refine (hrun.commit hstep).logHas hfirst hhead hseq (hcount' ▸ hcount)
      ⟨fun k _ => hall _ (hhead.iterate k), ?_⟩ hplace
    rw [hcount']
    exact NoCommit.of_none hnone
  · -- some block is missing, and so the commit block is as it was
    have hcommit := htorn.order.resolve_right hall
    have hold : ∀ k < st'.allocBlocks,
        recordAt sb st.log ((adv sb)^[k] ((adv sb)^[n] st₀.journal.last)) (idOf seq ts.length) =
          none := by
      intro k hk
      rw [← Function.iterate_add_apply]
      exact hstale _ (by omega) (by omega) _ (by simp)
    have hround : NoRound sb st₀.journal.last st₀.journal.last (n + stream.length) :=
      fun k hpos hk => iterate_adv_ne_self hhead hpos (by omega)
    have hpartly : PartlyOn sb (fun p => disk (place p)) (idOf seq ts.length)
        ((adv sb)^[n] st₀.journal.last) stream := by
      intro k hk
      rcases htorn.block _ ((hhead.iterate n).iterate k) with hbefore | hwritten
      · exact .inr (recordAt_none_congr hbefore (hold k (hlen ▸ hk)))
      · exact .inl (hwritten.trans (hon k hk))
    refine ⟨ts, .inl rfl, fun h => absurd h hall, ?_⟩
    refine hrun.logHas hfirst hhead hseq (by omega) ⟨fun k hk => ?_, ?_⟩
      fun p => ⟨(hplace p).1, fun t ht => (hplace p).2 t (List.mem_append_left _ ht)⟩
    · rcases htorn.block _ (hhead.iterate k) with hbefore | hwritten
      · exact hbefore
      · exact hwritten.trans (hframe _ (run_apart hhead hroom' hk))
    · have hpos : 0 < st'.allocBlocks := by
        obtain ⟨s₁, s₂, c, -, -, -, rfl⟩ := hstream
        rw [hlen, List.length_append, List.length_singleton]
        omega
      refine NoCommit.mono (hstream.partly hpartly ?_ hround.right) (by omega)
      rw [← hlen]
      exact recordAt_none_congr hcommit (hold _ (by omega))

/-! ## A run of one commit -/

/-- The journal stands behind the first `2 ^ 40` blocks of the disk. -/
def farPlace (p : ℕ) : ℕ := 2 ^ 40 + p

def farDisk (log : ℕ → Buf bs) (b : ℕ) : Buf bs :=
  if b < 2 ^ 40 then zeros bs else log (b - 2 ^ 40)

theorem farDisk_farPlace (log : ℕ → Buf bs) (p : ℕ) : farDisk log (farPlace p) = log p := by
  unfold farDisk farPlace
  rw [if_neg (by omega), Nat.add_sub_cancel_left]

theorem farPlace_apart : LogApart farPlace [smallTrans] := by
  intro p
  unfold farPlace
  refine ⟨?_, fun trans htrans => ?_⟩
  · have hlba : superblockLba 1024 = 1 := by decide
    omega
  · obtain rfl := List.mem_singleton.mp htrans
    have hwrites : (loggedBlocks smallTrans.bufQueue).map Prod.fst = [2 ^ 32 + 5] := rfl
    rw [hwrites, List.mem_singleton]
    omega

/-- The commit of that transaction. -/
theorem smallTrans_step {st' : CommitState 1024 Unit}
    (hw : writeTrans (idleCheckpoint smallSb 14) ⟨fun _ => zeros 1024, some 4⟩ smallTrans
      smallStart = .ok st') (htail : st'.journal.start = 14) :
    CommitStep (idleCheckpoint smallSb 14) ⟨fun _ => zeros 1024, some 4⟩ (idOf (2 ^ 32 - 1) 0) 14
      smallStart smallStart smallTrans st' :=
  ⟨rfl, rfl, ⟨by decide, by decide, by decide, rfl, rfl, rfl, rfl⟩, rfl, rfl, by decide, by decide,
    hw, htail⟩

theorem commitRun_survives_small :
    ∃ st', writeTrans (idleCheckpoint smallSb 14) ⟨fun _ => zeros 1024, some 4⟩ smallTrans
        smallStart = .ok st' ∧
      ∃ recs, transactions recs = [smallTrans].map JbdTrans.content ∧
        ∀ t s out, Mounted smallSb farPlace (farDisk st'.log) 5 ⟨14, 2 ^ 32 - 1⟩ recs t s →
          ∃ r t' s', jbdRecover smallSb farPlace out 5 t s = some (r, t', s') ∧
            (r = none → t'.start = 0 ∧
              Redone ([smallTrans].map JbdTrans.content) (farDisk st'.log) s'.dev) := by
  have hok : (match writeTrans (idleCheckpoint smallSb 14) ⟨fun _ => zeros 1024, some 4⟩ smallTrans
      smallStart with
      | .ok st' => some (st'.allocBlocks, st'.journal.start, get32 (st'.log 3) 0)
      | .error _ => none) = some (4, 14, 0) := by decide +kernel
  cases hw : writeTrans (idleCheckpoint smallSb 14) ⟨fun _ => zeros 1024, some 4⟩ smallTrans
      smallStart with
  | error e => rw [hw] at hok; cases hok
  | ok st' =>
      rw [hw] at hok
      obtain ⟨halloc, hrest⟩ := Prod.mk.inj (Option.some.inj hok)
      obtain ⟨htail, hnext⟩ := Prod.mk.inj hrest
      have hrun : CommitRun (idleCheckpoint smallSb 14) (2 ^ 32 - 1) smallStart [smallTrans]
          (0 + st'.allocBlocks) st' := .commit .start (smallTrans_step hw htail)
      rw [halloc] at hrun
      have hend : recordAt smallSb (fun p => farDisk st'.log (farPlace p)) 3
          (idOf (2 ^ 32 - 1) 1) = none := by
        refine recordAt_noMagic ?_
        rw [farDisk_farPlace, hnext]
        decide
      have hcut : CutOff smallSb farPlace (farDisk st'.log) (2 ^ 32 - 1) 14 st' 1 4 1 := by
        refine ⟨fun k _ => farDisk_farPlace _ _, [], ?_, rfl⟩
        rw [show (adv smallSb)^[4] 14 = 3 by decide, walk, hend]
      exact ⟨st', rfl, commitRun_survives (idleCheckpoint smallSb 14) (2 ^ 32 - 1) 1 smallStart st'
        [smallTrans] 4 farPlace (farDisk st'.log) (by decide) (by decide) hrun (by decide)
        (by decide) hcut farPlace_apart⟩

/-- The commit is cut off before its commit block. -/
theorem commit_atomic_torn :
    ∃ st', writeTrans (idleCheckpoint smallSb 14) ⟨fun _ => zeros 1024, some 4⟩ smallTrans
        smallStart = .ok st' ∧
      ∃ ts', (ts' = [] ∨ ts' = [smallTrans]) ∧
        ((∀ p, InLog smallSb p →
          farDisk (Function.update st'.log 2 (zeros 1024)) (farPlace p) = st'.log p) →
            ts' = [smallTrans]) ∧
        ∃ recs, transactions recs = ts'.map JbdTrans.content ∧
          ∀ t s out, Mounted smallSb farPlace (farDisk (Function.update st'.log 2 (zeros 1024))) 5
              ⟨14, 2 ^ 32 - 1⟩ recs t s →
            ∃ r t' s', jbdRecover smallSb farPlace out 5 t s = some (r, t', s') ∧
              (r = none → t'.start = 0 ∧ Redone (ts'.map JbdTrans.content)
                (farDisk (Function.update st'.log 2 (zeros 1024))) s'.dev) := by
  have hok : (match writeTrans (idleCheckpoint smallSb 14) ⟨fun _ => zeros 1024, some 4⟩ smallTrans
      smallStart with
      | .ok st' => some (st'.allocBlocks, st'.journal.start)
      | .error _ => none) = some (4, 14) := by decide +kernel
  cases hw : writeTrans (idleCheckpoint smallSb 14) ⟨fun _ => zeros 1024, some 4⟩ smallTrans
      smallStart with
  | error e => rw [hw] at hok; cases hok
  | ok st' =>
      rw [hw] at hok
      obtain ⟨halloc, htail⟩ := Prod.mk.inj (Option.some.inj hok)
      have hmagic : get32 (zeros 1024) 0 ≠ JBD_MAGIC_NUMBER := by decide +kernel
      have htorn : Torn smallSb ((adv smallSb)^[0] 14) st'.allocBlocks smallStart.log st'.log
          fun p => farDisk (Function.update st'.log 2 (zeros 1024)) (farPlace p) := by
        refine ⟨fun p _ => ?_, .inl ?_⟩
        · rw [farDisk_farPlace]
          by_cases hp : p = 2
          · rw [hp]
            exact .inl (Function.update_self ..)
          · exact .inr (Function.update_of_ne hp ..)
        · rw [halloc, farDisk_farPlace,
            show (adv smallSb)^[4 - 1] ((adv smallSb)^[0] 14) = 2 by decide]
          exact Function.update_self ..
      have hatomic := commit_atomic (idleCheckpoint smallSb 14) ⟨fun _ => zeros 1024, some 4⟩
        (2 ^ 32 - 1) smallStart smallStart smallStart st' [] smallTrans 0 farPlace
        (farDisk (Function.update st'.log 2 (zeros 1024))) (by decide) (by decide) .start
        (smallTrans_step hw htail) (by decide) (by decide) htorn
        (fun _ _ _ _ _ => recordAt_noMagic hmagic) farPlace_apart
      rw [halloc] at hatomic
      exact ⟨st', rfl, hatomic⟩

end Jbd
