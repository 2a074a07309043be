import OpenExt4.Journal.Passes
import OpenExt4.Journal.WriteBatch

set_option autoImplicit false

/-! # Recovery redoes the log

`jbd_recover`, with its batch and its revocations looked up beforehand, leaves what the plain redo
of the committed transactions leaves, for every log image; and a recovery that fails or is cut short
leaves the log and everything the log has nothing for, so that the next one starts over. -/

namespace Jbd

open Bytes ByteDevice RedoLog

variable {bs : ℕ} {sb : JbdSb bs} {place : ℕ → ℕ} {out : Outside} {touched : ℕ → Prop}
variable {disk : ℕ → Buf bs} {s : Replay bs} {batch : List (ℕ × Buf bs)} {b p : ℕ}

/-! ## What recovery works on -/

/-- What the blocks will read as once the batch is written. -/
def Replay.shown (s : Replay bs) : ℕ → Buf bs := Writes.apply (s.wb.getD []) s.dev

/-- Only touched blocks differ from the disk, or wait in the batch. -/
structure Within (touched : ℕ → Prop) (disk : ℕ → Buf bs) (s : Replay bs) : Prop where
  dev : ∀ b, ¬ touched b → s.dev b = disk b
  wb : ∀ batch, s.wb = some batch → ∀ w ∈ batch, touched w.1

theorem Within.of_eq {s' : Replay bs} (h : Within touched disk s) (hdev : s'.dev = s.dev)
    (hwb : s'.wb = s.wb) : Within touched disk s' :=
  ⟨fun b hb => (congrFun hdev b).trans (h.dev b hb), fun batch hb => h.wb batch (hwb ▸ hb)⟩

/-- The calls that read a block of the log. -/
structure Fetches (touched : ℕ → Prop) (disk : ℕ → Buf bs) (place : ℕ → ℕ) (p : ℕ) (s : Replay bs)
    (res : Except Errno (Buf bs) × Replay bs) : Prop where
  inv : Within touched disk res.2
  shown : res.2.shown = s.shown
  data : ∀ h, res.1 = .ok h → h = disk (place p)

theorem call_fetches (hw : Within touched disk s) (hplace : ¬ touched (place p)) :
    Fetches touched disk place p s (match s.call out with
      | (some e, s) => (.error e, s)
      | (none, s) => (.ok (s.dev (place p)), s)) := by
  rw [Replay.call]
  cases out.fails s.calls with
  | some e => exact ⟨hw.of_eq rfl rfl, rfl, fun h hh => by cases hh⟩
  | none =>
      refine ⟨hw.of_eq rfl rfl, rfl, fun h hh => ?_⟩
      rw [← Except.ok.inj hh]
      exact hw.dev _ hplace

theorem jbdBlockGet_fetches (hw : Within touched disk s) (hplace : ¬ touched (place p)) :
    Fetches touched disk place p s (jbdBlockGet place out p s) := by
  rw [jbdBlockGet]
  split
  · exact ⟨hw, rfl, fun h hh => by cases hh⟩
  · exact call_fetches hw hplace

theorem jbdReplayWndRead_fetches (hw : Within touched disk s) (hplace : ¬ touched (place p)) :
    Fetches touched disk place p s (jbdReplayWndRead sb place out p s) := by
  rw [jbdReplayWndRead]
  split
  · exact ⟨hw, rfl, fun h hh => by cases hh⟩
  · exact call_fetches hw hplace

/-! ## Replaying a block -/

theorem ext4SbWrite_dev (out : Outside) (s : Replay bs) (hb : b ≠ superblockLba bs) :
    (ext4SbWrite out s).2.dev b = s.dev b := by
  unfold ext4SbWrite
  dsimp only
  cases out.landing (s.calls + 1 - 1) <;> exact Function.update_of_ne hb _ _

theorem ext4SbWrite_wb (out : Outside) (s : Replay bs) : (ext4SbWrite out s).2.wb = s.wb := by
  unfold ext4SbWrite
  dsimp only
  cases out.landing (s.calls + 1 - 1) <;> rfl

theorem replaySuperblock_dev (out : Outside) (jdata : Buf bs) (s : Replay bs)
    (hb : b ≠ superblockLba bs) : (replaySuperblock out jdata s).2.dev b = s.dev b := by
  have hdev := ext4SbWrite_dev out { s with
    sb := putLE 2 (slice jdata EXT4_SUPERBLOCK_OFFSET EXT4_SUPERBLOCK_SIZE) SB_STATE
      (getLE 2 s.sb SB_STATE) } hb
  unfold replaySuperblock
  dsimp only
  split <;> exact hdev

theorem replaySuperblock_wb (out : Outside) (jdata : Buf bs) (s : Replay bs) :
    (replaySuperblock out jdata s).2.wb = s.wb := by
  have hwb := ext4SbWrite_wb out { s with
    sb := putLE 2 (slice jdata EXT4_SUPERBLOCK_OFFSET EXT4_SUPERBLOCK_SIZE) SB_STATE
      (getLE 2 s.sb SB_STATE) }
  unfold replaySuperblock
  dsimp only
  split <;> exact hwb

/-- After a flush the batch is the same or empty, and empty if the flush succeeds. -/
theorem jbdReplayWbFlush_wb (hwb : s.wb = some batch) :
    ((jbdReplayWbFlush out batch s).2.wb = some batch ∨
      (jbdReplayWbFlush out batch s).2.wb = some []) ∧
    ((jbdReplayWbFlush out batch s).1 = none →
      (jbdReplayWbFlush out batch s).2.wb = some []) := by
  unfold jbdReplayWbFlush Replay.call
  by_cases hnil : batch = []
  · rw [if_pos hnil]
    exact ⟨.inl hwb, fun _ => hwb.trans (congrArg some hnil)⟩
  · rw [if_neg hnil]
    cases out.fails s.calls with
    | some e => exact ⟨.inl hwb, fun h => absurd h (Option.some_ne_none _)⟩
    | none => exact ⟨.inr rfl, fun _ => rfl⟩

theorem jbdReplayWbFlush_within (hw : Within touched disk s) (hwb : s.wb = some batch) :
    Within touched disk (jbdReplayWbFlush out batch s).2 := by
  refine ⟨fun b hb => ?_, fun batch' hb => ?_⟩
  · have hout : b ∉ batch.map Prod.fst := by
      intro hmem
      obtain ⟨w, hmem', rfl⟩ := List.mem_map.mp hmem
      exact hb (hw.wb batch hwb w hmem')
    rw [jbdReplayWbFlush_frame hout]
    exact hw.dev b hb
  · rcases (@jbdReplayWbFlush_wb bs out s batch hwb).1 with h | h
    · rw [h] at hb
      exact hw.wb batch' (hwb.trans hb)
    · rw [h] at hb
      obtain rfl := Option.some.inj hb
      exact fun w hw => absurd hw List.not_mem_nil

theorem jbdReplayWbFlush_shown (hwb : s.wb = some batch)
    (hok : (jbdReplayWbFlush out batch s).1 = none) :
    (jbdReplayWbFlush out batch s).2.dev = s.shown := by
  rw [jbdReplayWbFlush_ok hok, Replay.shown, hwb]
  rfl

/-- What a call that replays a block does. -/
structure Replays (touched : ℕ → Prop) (disk : ℕ → Buf bs) (block : ℕ) (data : Buf bs)
    (s : Replay bs) (res : Option Errno × Replay bs) : Prop where
  inv : Within touched disk res.2
  shown : res.1 = none → ∀ b, b ≠ 0 ∧ b ≠ superblockLba bs →
    res.2.shown b = Function.update s.shown block data b

/-- A block behind the batch. -/
theorem push_replays {block : ℕ} {data : Buf bs} {s' : Replay bs} (hw : Within touched disk s')
    (hwb : s'.wb = some batch) (hshown : s'.shown = s.shown) (hblock : touched block) :
    Replays touched disk block data s
      (none, { s' with wb := s'.wb.map fun batch => batch ++ [(block, data)] }) := by
  refine ⟨⟨hw.dev, fun batch' hb w hmem => ?_⟩, fun _ b _ => ?_⟩
  · dsimp only at hb
    rw [hwb] at hb
    obtain rfl := Option.some.inj hb
    rcases List.mem_append.mp hmem with hmem | hmem
    · exact hw.wb batch hwb w hmem
    · obtain rfl := List.mem_singleton.mp hmem
      exact hblock
  · rw [← hshown, Replay.shown, Replay.shown, hwb]
    exact congrFun (Writes.apply_append batch [(block, data)] s'.dev) b

theorem jbdReplayWbRecord_replays {block : ℕ} {data : Buf bs} (hw : Within touched disk s)
    (hwb : s.wb = some batch) (hblock : touched block) :
    Replays touched disk block data s (jbdReplayWbRecord out batch block data s) := by
  unfold jbdReplayWbRecord
  by_cases hfull : batch.length = wbCap bs
  · rw [if_pos hfull]
    have hinv := @jbdReplayWbFlush_within bs out touched disk s batch hw hwb
    have hempty := (@jbdReplayWbFlush_wb bs out s batch hwb).2
    have hdev := @jbdReplayWbFlush_shown bs out s batch hwb
    rcases hflush : jbdReplayWbFlush out batch s with ⟨_ | e, s'⟩ <;>
      rw [hflush] at hinv hempty hdev
    · refine push_replays hinv (hempty rfl) ?_ hblock
      rw [Replay.shown, hempty rfl]
      exact hdev rfl
    · exact ⟨hinv, fun h => absurd h (Option.some_ne_none e)⟩
  · rw [if_neg hfull]
    exact push_replays hw hwb rfl hblock

theorem replayBlock_replays {block : ℕ} {jdata : Buf bs} {isEscape : Bool}
    (hw : Within touched disk s) (hsuper : touched (superblockLba bs)) (hblock : touched block) :
    Replays touched disk block (unescapeData isEscape jdata) s
      (replayBlock out block jdata isEscape s) := by
  unfold replayBlock
  by_cases hzero : block = 0
  · rw [if_pos hzero]
    have hwb := replaySuperblock_wb out jdata s
    refine ⟨⟨fun b hb => ?_, fun batch hb => hw.wb batch (hwb.symm.trans hb)⟩, fun _ b hb => ?_⟩
    · have hne : b ≠ superblockLba bs := fun h => hb (h ▸ hsuper)
      rw [replaySuperblock_dev out jdata s hne]
      exact hw.dev b hb
    · rw [hzero, Function.update_of_ne hb.1, Replay.shown, Replay.shown, hwb]
      exact apply_congr_memory _ (replaySuperblock_dev out jdata s hb.2)
  · rw [if_neg hzero]
    cases hwb : s.wb with
    | some batch => exact jbdReplayWbRecord_replays hw hwb hblock
    | none =>
        rw [Replay.call]
        cases out.fails s.calls with
        | some e => exact ⟨hw.of_eq rfl rfl, fun h => absurd h (Option.some_ne_none e)⟩
        | none =>
            refine ⟨⟨fun b hb => ?_, fun batch hb => hw.wb batch hb⟩, fun _ b _ => ?_⟩
            · have hne : b ≠ block := fun h => hb (h ▸ hblock)
              dsimp only
              rw [Function.update_of_ne hne]
              exact hw.dev b hb
            · dsimp only [Replay.shown]
              rw [hwb]
              rfl

/-- Recovery's access serves the log. -/
theorem recoverAccess_serves (hplace : ∀ p, ¬ touched (place p))
    (hsuper : touched (superblockLba bs)) :
    Serves (recoverAccess sb place out) (fun p => disk (place p)) (Within touched disk) touched
      (fun b => b ≠ 0 ∧ b ≠ superblockLba bs) Replay.shown where
  getHeader action p s hw := by
    have hfetch : Fetches touched disk place p s
        ((recoverAccess sb place out).getHeader action p s) := by
      dsimp only [recoverAccess]
      split
      · exact jbdReplayWndRead_fetches hw (hplace p)
      · exact jbdBlockGet_fetches hw (hplace p)
    exact ⟨hfetch.inv, hfetch.shown, hfetch.data⟩
  getData p s hw := by
    have hfetch : Fetches touched disk place p s ((recoverAccess sb place out).getData p s) := by
      dsimp only [recoverAccess]
      split
      · exact jbdReplayWndRead_fetches hw (hplace p)
      · exact jbdBlockGet_fetches hw (hplace p)
    exact ⟨hfetch.inv, hfetch.shown, hfetch.data⟩
  replay block jdata isEscape s hw hblock := by
    have hrep := @replayBlock_replays bs out touched disk s block jdata isEscape hw hsuper hblock
    exact ⟨hrep.inv, hrep.shown⟩
  alloc s hw := ⟨hw.of_eq rfl rfl, rfl⟩

/-! ## A recovery -/

/-- The blocks recovery may write: those the log has something for, and the superblock's. -/
def Touched (bs : ℕ) (ts : List (Trans ℕ (Buf bs))) (b : ℕ) : Prop :=
  redo ts b ≠ none ∨ b = superblockLba bs

/-- The log is redone, but for block 0 and the superblock, which recovery treats specially. -/
def Redone (ts : List (Trans ℕ (Buf bs))) (disk dev : ℕ → Buf bs) : Prop :=
  ∀ b, b ≠ 0 → b ≠ superblockLba bs → dev b = overlay (redo ts) disk b

/-- The log of a volume: its committed transactions, of which there are fewer than ids can tell
    apart, on blocks of the disk that they leave alone. -/
structure LogHas (sb : JbdSb bs) (place : ℕ → ℕ) (disk : ℕ → Buf bs) (fuel : ℕ) (tail : JbdTail)
    (recs : List (Record bs)) : Prop where
  records : records sb (fun p => disk (place p)) tail.start tail.sequence fuel = some recs
  start : tail.start ≠ 0
  sequence : tail.sequence < 2 ^ 32
  commits : commits recs < 2 ^ 31
  place : ∀ p, ¬ Touched bs (transactions recs) (place p)

variable {fuel : ℕ} {tail : JbdTail} {recs : List (Record bs)} {info : RecoverInfo (Replay bs)}

theorem Redone.of_agree {ts : List (Trans ℕ (Buf bs))} {dev : ℕ → Buf bs}
    (h : ∀ b, b ≠ 0 ∧ b ≠ superblockLba bs → dev b = overlay (redo ts) s.dev b)
    (hagree : ∀ b, ¬ Touched bs ts b → s.dev b = disk b) : Redone ts disk dev := by
  intro b h₀ hsuper
  rw [h b ⟨h₀, hsuper⟩, overlay, overlay]
  cases hredo : redo ts b with
  | some data => rfl
  | none =>
      refine hagree b fun htouched => ?_
      exact htouched.elim (fun h => h hredo) hsuper

/-- Without revoke blocks nothing is revoked. -/
theorem lastRevoke_of_noRevokes {i : ℕ} {root : ℕ → Option ℕ} (h : revokeBlocks recs = 0) :
    lastRevoke i (transactions recs) root = root := by
  induction recs generalizing i root with
  | nil => rfl
  | cons r rs ih =>
      cases r with
      | blocks ws =>
          rw [lastRevoke_blocks]
          exact ih h
      | revokes lbas =>
          rw [revokeBlocks, List.countP_cons_of_pos rfl] at h
          omega
      | commit =>
          simp only [transactions, lastRevoke, List.not_mem_nil, if_false]
          exact ih h

theorem revokePass_ok (hlog : LogHas sb place disk fuel tail recs)
    (hinv : Within (Touched bs (transactions recs)) disk info.env)
    (hscan : Scanned tail.sequence (commits recs) info)
    (hcnt : info.revokeBlockCnt = revokeBlocks recs) (hroot : info.revokeRoot = fun _ => none) :
    ∃ r info', revokePass sb place out tail fuel info = some (r, info') ∧
      Within (Touched bs (transactions recs)) disk info'.env ∧
      (r = none → Scanned tail.sequence (commits recs) info' ∧
        info'.revokeRoot =
          rootIds tail.sequence (lastRevoke 0 (transactions recs) fun _ => none)) := by
  rw [revokePass]
  split
  · next hzero =>
      refine ⟨none, info, rfl, hinv, fun _ => ⟨hscan, ?_⟩⟩
      rw [lastRevoke_of_noRevokes (hcnt.symm.trans hzero), hroot]
      rfl
  · obtain ⟨r, info', hres, hinv', hok⟩ := revoke_pass
      (recoverAccess_serves hlog.place (.inr rfl)) hlog.sequence hlog.records hlog.commits hinv
      hscan hroot
    exact ⟨r, info', hres, hinv', fun hr => ⟨(hok hr).1, (hok hr).2.1⟩⟩

/-- A new batch is empty. -/
theorem jbdReplayWbNew_shown (out : Outside) (s : Replay bs) :
    (jbdReplayWbNew out s).dev = s.dev ∧
      ((jbdReplayWbNew out s).wb = none ∨ (jbdReplayWbNew out s).wb = some []) := by
  unfold jbdReplayWbNew Replay.call
  split
  · exact ⟨rfl, .inl rfl⟩
  · cases out.fails s.calls with
    | some e => exact ⟨rfl, .inl rfl⟩
    | none => exact ⟨rfl, .inr rfl⟩

theorem jbdReplayWndNew_dev (out : Outside) (s : Replay bs) :
    (jbdReplayWndNew out s).dev = s.dev := by
  unfold jbdReplayWndNew Replay.call
  cases out.fails s.calls <;> rfl

theorem recoverPass_ok (hlog : LogHas sb place disk fuel tail recs)
    (hinv : Within (Touched bs (transactions recs)) disk info.env)
    (hscan : Scanned tail.sequence (commits recs) info)
    (hroot : info.revokeRoot =
      rootIds tail.sequence (lastRevoke 0 (transactions recs) fun _ => none)) :
    ∃ r s', recoverPass sb place out tail fuel info = some (r, s') ∧
      (∀ b, ¬ Touched bs (transactions recs) b → s'.dev b = disk b) ∧
      (r = none → Redone (transactions recs) disk s'.dev) := by
  obtain ⟨hdev, hempty⟩ := jbdReplayWbNew_shown out (jbdReplayWndNew out info.env)
  have hshown : (jbdReplayWbNew out (jbdReplayWndNew out info.env)).shown = info.env.dev := by
    rw [Replay.shown, hdev, jbdReplayWndNew_dev]
    rcases hempty with h | h <;> rw [h] <;> rfl
  -- the pass starts with an empty batch, or without one
  have hnew : Within (Touched bs (transactions recs)) disk
      (jbdReplayWbNew out (jbdReplayWndNew out info.env)) := by
    refine ⟨fun b hb => ?_, fun batch hwb w hmem => ?_⟩
    · rw [hdev, jbdReplayWndNew_dev]
      exact hinv.dev b hb
    · rcases hempty with h | h
      · rw [h] at hwb
        cases hwb
      · obtain rfl := Option.some.inj (h.symm.trans hwb)
        exact absurd hmem List.not_mem_nil
  obtain ⟨r, info', hres, hinv', hok⟩ := @recover_pass bs (Replay bs) (recoverAccess sb place out)
    sb (fun p => disk (place p)) (Within (Touched bs (transactions recs)) disk)
    (Touched bs (transactions recs)) (fun b => b ≠ 0 ∧ b ≠ superblockLba bs) Replay.shown recs
    { info with env := jbdReplayWbNew out (jbdReplayWndNew out info.env) } tail fuel
    (recoverAccess_serves hlog.place (.inr rfl)) hlog.sequence hlog.records hlog.commits hnew
    ⟨hscan.transCnt, hscan.lastTransId, hscan.rc⟩ hroot
    (fun w hw => .inl (redo_ne_none (List.mem_map_of_mem hw)))
  dsimp only at hok
  rw [hshown] at hok
  rw [recoverPass]
  dsimp only
  rw [hres]
  cases r with
  | some e => exact ⟨_, _, rfl, hinv'.dev, fun h => absurd h (Option.some_ne_none e)⟩
  | none =>
      dsimp only
      -- what is still in the batch is flushed behind the pass
      cases hwb : info'.env.wb with
      | none =>
          refine ⟨_, _, rfl, hinv'.dev, fun _ => Redone.of_agree (fun b hb => ?_) hinv.dev⟩
          rw [← hok rfl b hb, Replay.shown, hwb]
          rfl
      | some batch =>
          refine ⟨_, _, rfl, (jbdReplayWbFlush_within hinv' hwb).dev, fun hr => ?_⟩
          refine Redone.of_agree (fun b hb => ?_) hinv.dev
          rw [← hok rfl b hb]
          exact congrFun (jbdReplayWbFlush_shown hwb hr) b

/-- The end of a replay touches the superblock only. -/
theorem finishRecovery_ok (out : Outside) (tail : JbdTail) (lastTransId : ℕ) (s : Replay bs) :
    (∀ b, b ≠ superblockLba bs → (finishRecovery out tail lastTransId s).2.2.dev b = s.dev b) ∧
    ((finishRecovery out tail lastTransId s).2.1 = tail ∨
      (finishRecovery out tail lastTransId s).2.1.start = 0) ∧
    ((finishRecovery out tail lastTransId s).1 = none →
      (finishRecovery out tail lastTransId s).2.1.start = 0) := by
  have hread : (ext4SbRead out s).dev = s.dev := by
    unfold ext4SbRead Replay.call
    cases out.fails s.calls <;> rfl
  unfold finishRecovery
  dsimp only
  split
  · exact ⟨fun b _ => congrFun hread b, .inl rfl, fun h => absurd h (Option.some_ne_none _)⟩
  · refine ⟨fun b hb => ?_, .inr rfl, fun _ => rfl⟩
    exact (ext4SbWrite_dev out _ hb).trans (congrFun hread b)

/-- What a recovery does to a volume whose log it has not redone yet. -/
theorem jbdRecover_attempt (hlog : LogHas sb place disk fuel tail recs)
    (hagree : ∀ b, ¬ Touched bs (transactions recs) b → s.dev b = disk b) :
    ∃ r tail' s', jbdRecover sb place out fuel tail s = some (r, tail', s') ∧
      (∀ b, ¬ Touched bs (transactions recs) b → s'.dev b = disk b) ∧
      (tail' = tail ∨ tail'.start = 0 ∧ Redone (transactions recs) disk s'.dev) ∧
      (r = none → tail'.start = 0) := by
  have hnew : Within (Touched bs (transactions recs)) disk { s with wnd := false, wb := none } :=
    ⟨hagree, fun batch h => by cases h⟩
  rw [jbdRecover, if_neg hlog.start]
  obtain ⟨r₁, info₁, hres₁, hinv₁, hok₁⟩ := @scan_pass bs (Replay bs) (recoverAccess sb place out)
    sb (fun p => disk (place p)) (Within (Touched bs (transactions recs)) disk)
    (Touched bs (transactions recs)) (fun b => b ≠ 0 ∧ b ≠ superblockLba bs) Replay.shown recs
    ⟨0, 0, 0, 0, 0, 0, fun _ => none, none, { s with wnd := false, wb := none }⟩ tail fuel
    (recoverAccess_serves hlog.place (.inr rfl)) hlog.sequence hlog.records hlog.commits hnew rfl
    rfl
  dsimp only
  rw [hres₁]
  cases r₁ with
  | some e =>
      exact ⟨_, _, _, rfl, hinv₁.dev, .inl rfl, fun h => absurd h (Option.some_ne_none e)⟩
  | none =>
      obtain ⟨hscan₁, hcnt, hroot₁, -⟩ := hok₁ rfl
      obtain ⟨r₂, info₂, hres₂, hinv₂, hok₂⟩ :=
        @revokePass_ok bs sb place out disk fuel tail recs info₁ hlog hinv₁ hscan₁ hcnt hroot₁
      dsimp only
      rw [hres₂]
      cases r₂ with
      | some e =>
          exact ⟨_, _, _, rfl, hinv₂.dev, .inl rfl, fun h => absurd h (Option.some_ne_none e)⟩
      | none =>
          obtain ⟨hscan₂, hroot₂⟩ := hok₂ rfl
          obtain ⟨r₃, s₃, hres₃, hagree₃, hok₃⟩ :=
            @recoverPass_ok bs sb place out disk fuel tail recs info₂ hlog hinv₂ hscan₂ hroot₂
          dsimp only
          rw [hres₃]
          cases r₃ with
          | some e =>
              exact ⟨_, _, _, rfl, hagree₃, .inl rfl, fun h => absurd h (Option.some_ne_none e)⟩
          | none =>
              -- the start of the log is cleared only here, when everything is redone
              obtain ⟨hdev, htail, hstart⟩ := finishRecovery_ok out tail info₂.lastTransId s₃
              refine ⟨_, _, _, rfl, fun b hb => ?_, htail.imp_right fun h => ⟨h, ?_⟩, hstart⟩
              · exact (hdev b fun h => hb (.inr h)).trans (hagree₃ b hb)
              · exact fun b h₀ hsuper => (hdev b hsuper).trans (hok₃ rfl b h₀ hsuper)

/-! ## Mount after mount -/

/-- What mounting can have come to, with the tail of the journal superblock: the volume as it was
    found; after a recovery, however it fared; and after a power cut, which finds the log as it was
    and may leave any contents where the log has some. -/
inductive Mounted (sb : JbdSb bs) (place : ℕ → ℕ) (disk : ℕ → Buf bs) (fuel : ℕ) (tail : JbdTail)
    (recs : List (Record bs)) : JbdTail → Replay bs → Prop
  | found {s : Replay bs} (hdev : s.dev = disk) : Mounted sb place disk fuel tail recs tail s
  | recovered {t t' : JbdTail} {s s' : Replay bs} {r : Option Errno} (out : Outside)
      (hbefore : Mounted sb place disk fuel tail recs t s)
      (hres : jbdRecover sb place out fuel t s = some (r, t', s')) :
      Mounted sb place disk fuel tail recs t' s'
  | powerCut {t : JbdTail} {s s' : Replay bs} (hbefore : Mounted sb place disk fuel tail recs t s)
      (hleft : ∀ b, ¬ Touched bs (transactions recs) b → s'.dev b = s.dev b) :
      Mounted sb place disk fuel tail recs tail s'

/-- What holds mount after mount: the log is still to be redone, or it is redone. -/
structure Recoverable (disk : ℕ → Buf bs) (tail : JbdTail) (recs : List (Record bs)) (t : JbdTail)
    (s : Replay bs) : Prop where
  left : ∀ b, ¬ Touched bs (transactions recs) b → s.dev b = disk b
  log : t = tail ∨ t.start = 0 ∧ Redone (transactions recs) disk s.dev

theorem Mounted.recoverable {t : JbdTail} (hlog : LogHas sb place disk fuel tail recs)
    (h : Mounted sb place disk fuel tail recs t s) : Recoverable disk tail recs t s := by
  induction h with
  | found hdev => exact ⟨fun b _ => congrFun hdev b, .inl rfl⟩
  | @recovered t t' s s' r out _ hres ih =>
      rcases ih.log with rfl | ⟨hzero, hredone⟩
      · obtain ⟨r', t'', s'', hres', hleft, hdone, -⟩ :=
          @jbdRecover_attempt bs sb place out disk s fuel t recs hlog ih.left
        obtain ⟨rfl, rfl, rfl⟩ : r' = r ∧ t'' = t' ∧ s'' = s' := by
          have heq := Option.some.inj (hres'.symm.trans hres)
          exact ⟨congrArg Prod.fst heq, congrArg (fun x => x.2.1) heq,
            congrArg (fun x => x.2.2) heq⟩
        exact ⟨hleft, hdone⟩
      · rw [jbdRecover, if_pos hzero] at hres
        have heq := Option.some.inj hres
        obtain ⟨rfl, rfl⟩ : t = t' ∧ s = s' :=
          ⟨congrArg (fun x => x.2.1) heq, congrArg (fun x => x.2.2) heq⟩
        exact ih
  | powerCut _ hleft ih => exact ⟨fun b hb => (hleft b hb).trans (ih.left b hb), .inl rfl⟩

/-- The next recovery. -/
theorem Recoverable.recovers {t : JbdTail} (hrec : Recoverable disk tail recs t s)
    (hlog : LogHas sb place disk fuel tail recs) (out : Outside) :
    ∃ r t' s', jbdRecover sb place out fuel t s = some (r, t', s') ∧
      (r = none → t'.start = 0 ∧ Redone (transactions recs) disk s'.dev) ∧
      (∀ b, ¬ Touched bs (transactions recs) b → s'.dev b = disk b) ∧
      (t' = tail ∨ Redone (transactions recs) disk s'.dev) := by
  rcases hrec.log with rfl | ⟨hzero, hredone⟩
  · obtain ⟨r, t', s', hres, hleft, hdone, hstart⟩ :=
      @jbdRecover_attempt bs sb place out disk s fuel t recs hlog hrec.left
    refine ⟨r, t', s', hres, fun hr => ?_, hleft, hdone.imp_right And.right⟩
    refine ⟨hstart hr, (hdone.resolve_left fun h => ?_).2⟩
    exact hlog.start (h ▸ hstart hr)
  · refine ⟨none, t, s, ?_, fun _ => ⟨hzero, hredone⟩, hrec.left, .inr hredone⟩
    rw [jbdRecover, if_pos hzero]

/-- A journal of eight blocks of 1 KiB. -/
def briefSb : JbdSb 1024 where
  blocktype := JBD_SUPERBLOCK_V2
  maxlen := 8
  first := 1
  featureIncompat := fun _ => false
  uuid := zeros UUID_SIZE
  verified := verified_v2
  first_lt := by decide
  block_size := least_block
  block_size_lt := least_block_lt

/-- A descriptor block with a tag for block 5. -/
def briefDescriptor : Buf 1024 :=
  putBE 2 (set32 (setHeader (zeros 1024) JBD_DESCRIPTOR_BLOCK 7) 12 5) 18
    (JBD_FLAG_SAME_UUID + JBD_FLAG_LAST_TAG)

def briefCommit : Buf 1024 := setHeader (zeros 1024) JBD_COMMIT_BLOCK 7

/-- A disk with the journal at block 100: the descriptor, the copy of block 5, and the commit. -/
def briefDisk (b : ℕ) : Buf 1024 :=
  if b = 101 then briefDescriptor
  else if b = 102 then set32 (zeros 1024) 8 9
  else if b = 103 then briefCommit
  else zeros 1024

def briefPlace (p : ℕ) : ℕ := 100 + p

def briefRecords : List (Record 1024) := [.blocks [(5, set32 (zeros 1024) 8 9)], .commit]

theorem records_brief :
    records briefSb (fun p => briefDisk (briefPlace p)) 1 7 3 = some briefRecords := by
  have hdesc : recordAt briefSb (fun p => briefDisk (briefPlace p)) 1 (idOf 7 0) =
      some (.blocks [(5, set32 (zeros 1024) 8 9)]) := by
    have hheader : HeaderIs briefDescriptor JBD_DESCRIPTOR_BLOCK (idOf 7 0) := by
      constructor <;> decide +kernel
    have htags : (descriptorTags briefSb briefDescriptor).map (fun t => (t.block, t.isEscape)) =
        [(5, false)] := by decide +kernel
    have hcsum : jbdVerifyMetaCsum briefSb briefDescriptor = true := by decide +kernel
    refine (@recordAt_descriptor 1024 briefSb (fun p => briefDisk (briefPlace p)) 1 _ hheader
      hcsum).trans ?_
    obtain ⟨t, ht, hkey⟩ := List.map_eq_singleton_iff.mp htags
    obtain ⟨hblock, hescape⟩ := Prod.mk.inj hkey
    rw [show briefDisk (briefPlace 1) = briefDescriptor from rfl, ht, images, images, hblock,
      hescape]
    rfl
  have hcommit : recordAt briefSb (fun p => briefDisk (briefPlace p)) 3 (idOf 7 0) =
      some .commit := by
    have hheader : HeaderIs briefCommit JBD_COMMIT_BLOCK (idOf 7 0) := by
      constructor <;> decide +kernel
    have hcsum : jbdVerifyCommitCsum briefSb briefCommit = true := by decide +kernel
    exact @recordAt_commit 1024 briefSb (fun p => briefDisk (briefPlace p)) 3 _ hheader hcsum
  have hend : recordAt briefSb (fun p => briefDisk (briefPlace p)) 4 (idOf 7 1) = none :=
    recordAt_noMagic (by decide +kernel)
  have hthree : (adv briefSb)^[
      (Record.blocks [(5, set32 (zeros 1024) 8 9)] : Record 1024).span] 1 = 3 := rfl
  have hfour : (adv briefSb)^[(Record.commit : Record 1024).span] 3 = 4 := rfl
  rw [records, walk, hdesc]
  dsimp only
  rw [hthree, if_neg (by decide), walk, Record.next, hcommit]
  dsimp only
  rw [hfour, if_neg (by decide), walk, Record.next, hend]
  rfl

theorem briefDisk_logHas : LogHas briefSb briefPlace briefDisk 3 ⟨1, 7⟩ briefRecords := by
  refine ⟨records_brief, by decide, by decide, by decide, fun p hp => ?_⟩
  unfold briefPlace at hp
  rcases hp with hp | hp
  · have hne : 100 + p ≠ 5 := by omega
    refine hp ?_
    simp only [briefRecords, transactions, List.modifyHead_cons, redo, List.foldl_cons,
      List.foldl_nil, Trans.redo, List.not_mem_nil, if_false, List.append_nil, List.map_cons,
      List.map_nil, Writes.apply_cons, Writes.apply_nil]
    exact Function.update_of_ne hne _ _
  · have hlba : superblockLba 1024 = 1 := by decide
    rw [hlba] at hp
    omega

end Jbd
