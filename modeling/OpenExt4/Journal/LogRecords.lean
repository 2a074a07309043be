import OpenExt4.Journal.Stream
import OpenExt4.Journal.Reader
import OpenExt4.Lib.RedoLog

set_option autoImplicit false

/-! # What a log says

The records of a log image, whatever it holds: from the start on, as long as each block is a record
of the transaction that is due. A transaction counts with its commit block. The loop over the log is
then a walk along these records, for any access to the log that serves its blocks. -/

namespace Jbd

open Bytes RedoLog

variable {bs : ℕ} {σ : Type}

/-! ## Records and transactions -/

/-- A record: the logged copies behind a descriptor block, the entries of a revoke block, or a
    commit. -/
inductive Record (bs : ℕ) where
  | blocks (ws : List (ℕ × Buf bs))
  | revokes (lbas : List ℕ)
  | commit

/-- The copies behind the descriptor block at `p`, with the blocks they belong to. -/
def images (sb : JbdSb bs) (log : ℕ → Buf bs) : ℕ → List TagInfo → List (ℕ × Buf bs)
  | _, [] => []
  | p, t :: ts =>
      (t.block, unescapeData t.isEscape (log (adv sb p))) :: images sb log (adv sb p) ts

/-- The record of transaction `id` at `p`, if there is one. -/
def recordAt (sb : JbdSb bs) (log : ℕ → Buf bs) (p id : ℕ) : Option (Record bs) :=
  let header := log p
  if get32 header 0 ≠ JBD_MAGIC_NUMBER ∨ get32 header 8 ≠ id then none
  else if get32 header 4 = JBD_DESCRIPTOR_BLOCK then
    if jbdVerifyMetaCsum sb header then
      some (.blocks (images sb log p (descriptorTags sb header)))
    else none
  else if get32 header 4 = JBD_COMMIT_BLOCK then
    if jbdVerifyCommitCsum sb header then some .commit else none
  else if get32 header 4 = JBD_REVOKE_BLOCK then
    if jbdVerifyMetaCsum sb header then some (.revokes (revokeEntries sb header)) else none
  else none

/-- The log blocks of a record. -/
def Record.span : Record bs → ℕ
  | .blocks ws => ws.length + 1
  | .revokes _ => 1
  | .commit => 1

/-- The number of the transaction behind a record of transaction `i`. -/
def Record.next : Record bs → ℕ → ℕ
  | .blocks _, i => i
  | .revokes _, i => i
  | .commit, i => i + 1

/-- The id of the `i`-th transaction of a log that starts with `seq`. -/
def idOf (seq i : ℕ) : ℕ := (seq + i) % 2 ^ 32

/-- The records from `p` on, where transaction `i` is due: a walk that ends where there is none, or
    when it gets back to the start. -/
def walk (recordAt : ℕ → ℕ → Option (Record bs)) (next : ℕ → ℕ) (start seq : ℕ) :
    ℕ → ℕ → ℕ → Option (List (Record bs))
  | 0, _, _ => none
  | fuel + 1, p, i =>
      match recordAt p (idOf seq i) with
      | none => some []
      | some r =>
          if next^[r.span] p = start then some [r]
          else
            (walk recordAt next start seq fuel (next^[r.span] p) (r.next i)).map fun rs => r :: rs

/-- The records of the log from `start` on. A walk that never ends has none, for any `fuel`. -/
def records (sb : JbdSb bs) (log : ℕ → Buf bs) (start seq fuel : ℕ) : Option (List (Record bs)) :=
  walk (recordAt sb log) (adv sb) start seq fuel start 0

/-- The transactions that are committed. -/
def transactions : List (Record bs) → List (Trans ℕ (Buf bs))
  | [] => []
  | .blocks ws :: rs => (transactions rs).modifyHead fun t => { t with writes := ws ++ t.writes }
  | .revokes lbas :: rs =>
      (transactions rs).modifyHead fun t => { t with revokes := lbas ++ t.revokes }
  | .commit :: rs => ⟨[], []⟩ :: transactions rs

/-- The number of commits ahead. -/
def commits (rs : List (Record bs)) : ℕ := (transactions rs).length

theorem commits_cons (r : Record bs) (rs : List (Record bs)) (i : ℕ) :
    r.next i + commits rs = i + commits (r :: rs) := by
  cases r with
  | blocks ws => rw [commits, commits, transactions, List.length_modifyHead]; rfl
  | revokes lbas => rw [commits, commits, transactions, List.length_modifyHead]; rfl
  | commit =>
      rw [commits, commits, transactions, List.length_cons, Record.next]
      omega

/-! ## Ids -/

theorem nextTransId_idOf (seq i : ℕ) : nextTransId (idOf seq i) = idOf seq (i + 1) := by
  unfold nextTransId idOf
  omega

theorem transIdDiff_idOf {seq i j : ℕ} (hi : i < 2 ^ 31) (hj : j < 2 ^ 31) :
    transIdDiff (idOf seq i) (idOf seq j) = (i : ℤ) - j := by
  unfold transIdDiff idOf
  dsimp only
  split <;> omega

theorem idOf_zero {seq : ℕ} (h : seq < 2 ^ 32) : idOf seq 0 = seq := Nat.mod_eq_of_lt h

/-! ## An access that serves a log -/

/-- The access reads the blocks of `log`. It keeps `Inv` for blocks that are `touched`, and what it
    shows of a watched block is what was replayed there last. -/
structure Serves (io : LogAccess bs σ) (log : ℕ → Buf bs) (Inv : σ → Prop)
    (touched watched : ℕ → Prop) (shown : σ → ℕ → Buf bs) : Prop where
  getHeader : ∀ action p s, Inv s → Inv (io.getHeader action p s).2 ∧
    shown (io.getHeader action p s).2 = shown s ∧
      ∀ h, (io.getHeader action p s).1 = .ok h → h = log p
  getData : ∀ p s, Inv s → Inv (io.getData p s).2 ∧ shown (io.getData p s).2 = shown s ∧
    ∀ h, (io.getData p s).1 = .ok h → h = log p
  replay : ∀ block jdata isEscape s, Inv s → touched block →
    Inv (io.replay block jdata isEscape s).2 ∧
      ((io.replay block jdata isEscape s).1 = none → ∀ b, watched b →
        shown (io.replay block jdata isEscape s).2 b =
          Function.update (shown s) block (unescapeData isEscape jdata) b)
  alloc : ∀ s, Inv s → Inv (io.allocRevokeEntry s).2 ∧ shown (io.allocRevokeEntry s).2 = shown s

/-! ## The walk -/

variable {io : LogAccess bs σ} {sb : JbdSb bs} {log : ℕ → Buf bs} {Inv : σ → Prop}
variable {touched watched : ℕ → Prop} {shown : σ → ℕ → Buf bs} {action : Action}

theorem images_length (p : ℕ) (tags : List TagInfo) :
    (images sb log p tags).length = tags.length := by
  induction tags generalizing p with
  | nil => rfl
  | cons t tags ih => rw [images, List.length_cons, ih, List.length_cons]

/-- The pass is behind its last transaction. -/
abbrev Past (action : Action) (id : ℕ) (info : RecoverInfo σ) : Prop :=
  action ≠ .scan ∧ transIdDiff id info.lastTransId > 0

/-- What a step makes of a record of transaction `i` at `p`, in a pass that has `J` and all the time
    `Inv`. -/
structure StepOk (sb : JbdSb bs) (seq : ℕ) (Inv : σ → Prop)
    (J : ℕ → List (Record bs) → RecoverInfo σ → Prop) (p i : ℕ) (r : Record bs)
    (rs : List (Record bs)) (st : BlockStep σ) : Prop where
  pos : wrap sb (st.thisBlock + 1) = (adv sb)^[r.span] p
  id : st.thisTransId = idOf seq (r.next i)
  inv : Inv st.info.env
  logEnd : st.r = none → st.logEnd = false
  stop : st.r ≠ none → st.logEnd = true
  keeps : st.r = none → J (r.next i) rs st.info

/-- The result of a walk that had `J`. -/
structure WalkOk (seq : ℕ) (action : Action) (Inv : σ → Prop)
    (J : ℕ → List (Record bs) → RecoverInfo σ → Prop) (res : IterateResult σ) : Prop where
  inv : Inv res.info.env
  ends : res.r = none → ∃ j rest, J j rest res.info ∧ res.thisTransId = idOf seq j ∧
    (rest = [] ∨ Past action res.thisTransId res.info)

/-- A block that is no record of the due transaction ends the walk, and without an error if it ends
    the scan. -/
theorem jbdIterateLogLoop_noRecord (start fuel : ℕ) {p id : ℕ} {info : RecoverInfo σ}
    (hserves : Serves io log Inv touched watched shown) (hinv : Inv info.env)
    (hrec : recordAt sb log p id = none) (hpast : ¬ Past action id info) :
    ∃ res, jbdIterateLogLoop io sb action start (fuel + 1) p id info = some res ∧
      Inv res.info.env ∧ (∃ env, res.info = { info with env := env }) ∧
        shown res.info.env = shown info.env ∧ (res.r = none → res.thisTransId = id) := by
  obtain ⟨hinv', hshown, hdata⟩ := hserves.getHeader action p info.env hinv
  rw [jbdIterateLogLoop, if_neg hpast]
  rcases hget : io.getHeader action p info.env with ⟨e | h, env⟩
  · rw [hget] at hinv' hshown
    exact ⟨_, rfl, hinv', ⟨env, rfl⟩, hshown, fun h => absurd h (Option.some_ne_none e)⟩
  · rw [hget] at hinv' hshown hdata
    obtain rfl := hdata h rfl
    dsimp only
    unfold recordAt at hrec
    dsimp only at hrec
    by_cases hmagic : get32 (log p) 0 ≠ JBD_MAGIC_NUMBER
    · rw [if_pos hmagic]
      exact ⟨_, rfl, hinv', ⟨env, rfl⟩, hshown, fun _ => rfl⟩
    · by_cases hseq : get32 (log p) 8 ≠ id
      · rw [if_neg hmagic, if_pos hseq]
        exact ⟨_, rfl, hinv', ⟨env, rfl⟩, hshown, fun _ => rfl⟩
      · rw [if_neg (not_or.mpr ⟨hmagic, hseq⟩)] at hrec
        -- an unknown type or a wrong checksum ends the log like a foreign id does
        have hend : jbdProcessBlock io sb action (log p) p id { info with env := env } =
            ⟨none, true, p, id, { info with env := env }⟩ := by
          unfold jbdProcessBlock
          dsimp only
          split at hrec
          · next htype =>
              split at hrec
              · exact absurd hrec (Option.some_ne_none _)
              · next hcsum => rw [if_pos htype, if_pos (by simpa using hcsum)]
          · next hdesc =>
              split at hrec
              · next htype =>
                  split at hrec
                  · exact absurd hrec (Option.some_ne_none _)
                  · next hcsum =>
                      rw [if_neg hdesc, if_pos htype, if_pos (by simpa using hcsum)]
              · next hcommit =>
                  split at hrec
                  · next htype =>
                      split at hrec
                      · exact absurd hrec (Option.some_ne_none _)
                      · next hcsum =>
                          rw [if_neg hdesc, if_neg hcommit, if_pos htype,
                            if_pos (by simpa using hcsum)]
                  · next hrevoke => rw [if_neg hdesc, if_neg hcommit, if_neg hrevoke]
        rw [if_neg hmagic, if_neg hseq, hend]
        dsimp only
        rw [if_pos (Or.inl rfl)]
        exact ⟨_, rfl, hinv', ⟨env, rfl⟩, hshown, fun _ => rfl⟩

/-- The header of a record. -/
theorem header_of_recordAt {p id : ℕ} {r : Record bs} (h : recordAt sb log p id = some r) :
    get32 (log p) 0 = JBD_MAGIC_NUMBER ∧ get32 (log p) 8 = id := by
  unfold recordAt at h
  dsimp only at h
  split at h
  · cases h
  · next hhead =>
      rw [not_or, not_ne_iff, not_ne_iff] at hhead
      exact hhead

theorem recordAt_descriptor {p id : ℕ} (h : HeaderIs (log p) JBD_DESCRIPTOR_BLOCK id)
    (hcsum : jbdVerifyMetaCsum sb (log p) = true) :
    recordAt sb log p id = some (.blocks (images sb log p (descriptorTags sb (log p)))) := by
  unfold recordAt
  dsimp only
  rw [if_neg (not_or.mpr ⟨not_ne_iff.mpr h.magic, not_ne_iff.mpr h.sequence⟩), if_pos h.blocktype,
    if_pos hcsum]

theorem recordAt_commit {p id : ℕ} (h : HeaderIs (log p) JBD_COMMIT_BLOCK id)
    (hcsum : jbdVerifyCommitCsum sb (log p) = true) : recordAt sb log p id = some .commit := by
  unfold recordAt
  dsimp only
  rw [if_neg (not_or.mpr ⟨not_ne_iff.mpr h.magic, not_ne_iff.mpr h.sequence⟩),
    if_neg (by rw [h.blocktype]; decide), if_pos h.blocktype, if_pos hcsum]

theorem recordAt_revoke {p id : ℕ} (h : HeaderIs (log p) JBD_REVOKE_BLOCK id)
    (hcsum : jbdVerifyMetaCsum sb (log p) = true) :
    recordAt sb log p id = some (.revokes (revokeEntries sb (log p))) := by
  unfold recordAt
  dsimp only
  rw [if_neg (not_or.mpr ⟨not_ne_iff.mpr h.magic, not_ne_iff.mpr h.sequence⟩),
    if_neg (by rw [h.blocktype]; decide), if_neg (by rw [h.blocktype]; decide),
    if_pos h.blocktype, if_pos hcsum]

theorem recordAt_noMagic {p id : ℕ} (h : get32 (log p) 0 ≠ JBD_MAGIC_NUMBER) :
    recordAt sb log p id = none := by
  unfold recordAt
  dsimp only
  rw [if_pos (Or.inl h)]

/-- What is left of the walk behind a record. -/
theorem walk_next {J : ℕ → List (Record bs) → RecoverInfo σ → Prop} {start seq fuel p i : ℕ}
    {r : Record bs} {rs : List (Record bs)} {st : BlockStep σ}
    (hrest : ((adv sb)^[r.span] p = start ∧ rs = []) ∨ ((adv sb)^[r.span] p ≠ start ∧
      walk (recordAt sb log) (adv sb) start seq fuel ((adv sb)^[r.span] p) (r.next i) = some rs))
    (hok : StepOk sb seq Inv J p i r rs st)
    (ih : (adv sb)^[r.span] p ≠ start →
      walk (recordAt sb log) (adv sb) start seq fuel ((adv sb)^[r.span] p) (r.next i) = some rs →
        J (r.next i) rs st.info → Inv st.info.env →
          ∃ res, jbdIterateLogLoop io sb action start fuel ((adv sb)^[r.span] p)
            (idOf seq (r.next i)) st.info = some res ∧ WalkOk seq action Inv J res) :
    ∃ res, (if st.logEnd = true ∨ wrap sb (st.thisBlock + 1) = start then
        some ⟨st.r, st.thisTransId, st.info⟩
      else
        jbdIterateLogLoop io sb action start fuel (wrap sb (st.thisBlock + 1)) st.thisTransId
          st.info) = some res ∧ WalkOk seq action Inv J res := by
  rw [hok.pos]
  by_cases hr : st.r = none
  · have hkeeps := hok.keeps hr
    rcases hrest with ⟨hq, rfl⟩ | ⟨hq, hrs⟩
    · rw [if_pos (Or.inr hq)]
      exact ⟨_, rfl, hok.inv, fun _ => ⟨_, [], hkeeps, hok.id, .inl rfl⟩⟩
    · have hgo : ¬ (st.logEnd = true ∨ (adv sb)^[r.span] p = start) := by
        rw [hok.logEnd hr, not_or]
        exact ⟨Bool.false_ne_true, hq⟩
      rw [if_neg hgo, hok.id]
      exact ih hq hrs hkeeps hok.inv
  · rw [if_pos (Or.inl (hok.stop hr))]
    exact ⟨_, rfl, hok.inv, fun h => absurd h hr⟩

/-- **The loop over the log walks along its records**: what every step keeps holds at its end. -/
theorem jbdIterateLogLoop_walk {J : ℕ → List (Record bs) → RecoverInfo σ → Prop} {start seq : ℕ}
    (hserves : Serves io log Inv touched watched shown)
    (hread : ∀ i rs info env, J i rs info → Inv info.env → Inv env →
      shown env = shown info.env → J i rs { info with env := env })
    (hstep : ∀ i r rs p info, J i (r :: rs) info → Inv info.env →
      recordAt sb log p (idOf seq i) = some r → ¬ Past action (idOf seq i) info →
        StepOk sb seq Inv J p i r rs
          (jbdProcessBlock io sb action (log p) p (idOf seq i) info))
    {fuel p i : ℕ} {recs : List (Record bs)} {info : RecoverInfo σ}
    (hrecs : walk (recordAt sb log) (adv sb) start seq fuel p i = some recs) (hJ : J i recs info)
    (hinv : Inv info.env) :
    ∃ res, jbdIterateLogLoop io sb action start fuel p (idOf seq i) info = some res ∧
      WalkOk seq action Inv J res := by
  induction fuel generalizing p i recs info with
  | zero => cases hrecs
  | succ fuel ih =>
      by_cases hpast : Past action (idOf seq i) info
      · refine ⟨⟨none, idOf seq i, info⟩, ?_, hinv, fun _ => ⟨i, recs, hJ, rfl, .inr hpast⟩⟩
        rw [jbdIterateLogLoop, if_pos hpast]
      rw [walk] at hrecs
      cases hrec : recordAt sb log p (idOf seq i) with
      | none =>
          rw [hrec] at hrecs
          dsimp only at hrecs
          obtain rfl : [] = recs := Option.some.inj hrecs
          obtain ⟨res, hres, hinv', ⟨env, henv⟩, hshown, hid⟩ :=
            jbdIterateLogLoop_noRecord start fuel hserves hinv hrec hpast
          refine ⟨res, hres, hinv', fun hr => ⟨i, [], ?_, hid hr, .inl rfl⟩⟩
          rw [henv] at hinv' hshown ⊢
          exact hread i [] info env hJ hinv hinv' hshown
      | some r =>
          rw [hrec] at hrecs
          dsimp only at hrecs
          obtain ⟨hmagic, hseq⟩ := header_of_recordAt hrec
          obtain ⟨hinv', hshown, hdata⟩ := hserves.getHeader action p info.env hinv
          rw [jbdIterateLogLoop, if_neg hpast]
          rcases hget : io.getHeader action p info.env with ⟨e | h, env⟩
          · rw [hget] at hinv'
            exact ⟨_, rfl, hinv', fun h => absurd h (Option.some_ne_none e)⟩
          rw [hget] at hinv' hshown hdata
          obtain rfl := hdata h rfl
          dsimp only at hinv' hshown ⊢
          rw [if_neg (not_ne_iff.mpr hmagic), if_neg (not_ne_iff.mpr hseq)]
          -- the records behind this one
          obtain ⟨rs, rfl, hrest⟩ : ∃ rs, recs = r :: rs ∧
              (((adv sb)^[r.span] p = start ∧ rs = []) ∨ ((adv sb)^[r.span] p ≠ start ∧
                walk (recordAt sb log) (adv sb) start seq fuel ((adv sb)^[r.span] p) (r.next i) =
                  some rs)) := by
            split at hrecs
            · next hq => exact ⟨[], (Option.some.inj hrecs).symm, .inl ⟨hq, rfl⟩⟩
            · next hq =>
                obtain ⟨rs, hrs, rfl⟩ := Option.map_eq_some_iff.mp hrecs
                exact ⟨rs, rfl, .inr ⟨hq, hrs⟩⟩
          exact walk_next hrest (hstep i r rs p { info with env := env }
            (hread i _ info env hJ hinv hinv' hshown) hinv' hrec hpast) fun _ => ih

end Jbd
