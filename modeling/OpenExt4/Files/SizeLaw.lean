import OpenExt4.Files.Owned
import OpenExt4.Files.WriteProofs

set_option autoImplicit false

/-! # The size law of writes

What a call of `ext4b_write` says it wrote, and what it wrote. -/

namespace Files

open ByteDevice Batching

variable {bs : BlockSize}

/-! ## A call as a whole -/

/-- The size of the file follows from what the call reports, and what it reports is in the file. -/
def WriteLaw (bs : BlockSize) (v : Vol) (env : WriteEnv) (buf : ℕ → UInt8)
    (ino offset count : ℕ) : Prop :=
  let out := write bs v env buf ino offset count
  SizeLaw (v.file ino).file.size offset out.2.1 (out.2.2.file ino).file.size ∧
    ∀ k < out.2.1, offset + k < (out.2.2.file ino).file.size ∧
      (out.2.2.file ino).byte bs (offset + k) = buf k

/-- The file as the loop of the call finds it, if the call gets there. -/
def loopStart (bs : BlockSize) (v : Vol) (env : WriteEnv) (ino offset count : ℕ) : Option Disk :=
  if count = 0 ∨ env.begin ≠ none ∨ env.get ≠ none ∨
      writeRefusal bs (v.file ino).file offset count ≠ none then none
  else
    match reserveAhead bs v env.reserve ino offset count with
    | (some _, _) => none
    | (none, v) => some (v.file ino)

/-- The loop is cut short, and the call is not one that fails alone in its transaction, which takes
    it back. -/
def Stranded (bs : BlockSize) (v : Vol) (env : WriteEnv) (buf : ℕ → UInt8)
    (ino offset count : ℕ) : Prop :=
  ∃ d, loopStart bs v env ino offset count = some d ∧
    CutShort bs buf env.answers d offset count ∧
    ¬ (v.batch.journal = true ∧ v.batch.ops = 0 ∧
      (writeRuns bs buf env.answers d offset count).2.written = 0)

/-- No turn of the loop goes wrong. -/
def SoundCall (bs : BlockSize) (v : Vol) (env : WriteEnv) (buf : ℕ → UInt8)
    (ino offset count : ℕ) : Prop :=
  ∀ d, loopStart bs v env ino offset count = some d →
    Along bs buf (Sound bs) env.answers.turns (Wr.start bs d offset count)

/-- A call that does not get to its loop writes nothing; what it leaves is as quiet as what it
    reserved. -/
theorem write_refused {v : Vol} {env : WriteEnv} (buf : ℕ → UInt8) {ino offset count : ℕ}
    (hok : v.batch.cur.Ok) (h : loopStart bs v env ino offset count = none) :
    (write bs v env buf ino offset count).2.1 = 0 ∧
      ((write bs v env buf ino offset count).2.2 = v ∨
        ∃ v' e, Quiet v v' ∧
          (write bs v env buf ino offset count).2.2 = (v'.finish env.fate (some e)).2) := by
  simp only [write, loopStart] at h ⊢
  split
  · exact ⟨rfl, .inl rfl⟩
  · next hcount =>
      cases hbegin : env.begin with
      | some e => exact ⟨rfl, .inl rfl⟩
      | none =>
          cases hget : env.get with
          | some e => exact ⟨rfl, .inr ⟨v, e, Quiet.refl hok, rfl⟩⟩
          | none =>
              cases hrefusal : writeRefusal bs (v.file ino).file offset count with
              | some e => exact ⟨rfl, .inr ⟨v, e, Quiet.refl hok, rfl⟩⟩
              | none =>
                  have hquiet := reserveAhead_quiet bs hok env.reserve ino offset count
                  simp only [hcount, hbegin, hget, hrefusal, ne_eq, not_true_eq_false,
                    or_self, if_false] at h
                  cases hahead : reserveAhead bs v env.reserve ino offset count with
                  | mk e v' =>
                      rw [hahead] at h hquiet
                      cases e with
                      | some e => exact ⟨rfl, .inr ⟨v', e, hquiet, rfl⟩⟩
                      | none => simp at h

/-- A call that gets to its loop. -/
theorem write_loops {v : Vol} {env : WriteEnv} (buf : ℕ → UInt8) {ino offset count : ℕ} {d : Disk}
    (hok : v.batch.cur.Ok) (h : loopStart bs v env ino offset count = some d) :
    0 < count ∧ ∃ v', Quiet v v' ∧ d = v'.file ino ∧
      write bs v env buf ino offset count =
        (((v'.put ino (writeBody bs buf env.answers d offset count).2.2).finish env.fate
            (writeBody bs buf env.answers d offset count).1).1,
          (writeBody bs buf env.answers d offset count).2.1,
          ((v'.put ino (writeBody bs buf env.answers d offset count).2.2).finish env.fate
            (writeBody bs buf env.answers d offset count).1).2) := by
  simp only [loopStart] at h
  split at h
  · cases h
  · next hreached =>
      simp only [ne_eq, not_or, not_not] at hreached
      obtain ⟨hcount, hbegin, hget, hrefusal⟩ := hreached
      have hquiet := reserveAhead_quiet bs hok env.reserve ino offset count
      cases hahead : reserveAhead bs v env.reserve ino offset count with
      | mk e v' =>
          rw [hahead] at h hquiet
          cases e with
          | some e => cases h
          | none =>
              obtain rfl := Option.some.inj h
              refine ⟨Nat.pos_of_ne_zero hcount, v', hquiet, rfl, ?_⟩
              simp only [write, hbegin, hget, hrefusal, hahead]
              rw [if_neg hcount]

theorem finish_files {v : Vol} {t : Fate Errno} (ht : t.commit = none) (r : Option Errno) (i : ℕ) :
    ((v.finish t r).2.file i).file =
      if v.batch.journal = true ∧ v.batch.ops = 0 ∧ r ≠ none then v.batch.disk.files i
      else (v.file i).file := by
  simp only [Vol.file, Vol.finish, v.batch.finish_cur_of_commit ht r]
  split
  · rfl
  · rfl

/-- Blocks of a kilobyte. -/
def kib : BlockSize := ⟨1024, by decide, by decide⟩

/-- An empty regular file with extents. -/
def emptyFile : File := ⟨false, false, false, true, 1, 0, 0, 0, 0, []⟩

/-- A volume with one file, inode 12, and an operation in its batch. -/
def oneFile (f : File) (inUse : List ℕ) : Vol :=
  let m : Meta := ⟨fun i => if i = 12 then f else { emptyFile with links := 0 }, inUse.contains⟩
  ⟨⟨true, m, m, 1, 16⟩, fun _ => 0, List.replicate 8 ⟨0, 0⟩, 0⟩

/-- A turn in which nothing fails and `fresh` is the block that is allocated. -/
def smoothTurn (fresh : ℕ) : Turn :=
  ⟨some 0, some 0, .lands, .lands, none, false, ⟨none, 0, fresh⟩, [⟨none, 0, fresh⟩]⟩

/-- A call in which nothing fails but what its turns and its last run do. -/
def callWith (turns : List Turn) (last : Landing Errno) : WriteEnv where
  begin := none
  get := none
  reserve := ⟨some 0, 0, fun _ => ⟨none, none, none⟩, [], ⟨none, none, none⟩⟩
  answers := ⟨turns, last, none, 0⟩
  fate := ⟨false, none, none⟩

theorem oneFile_ok {f : File} {inUse : List ℕ}
    (hown : ∀ l l' a a', f.map l = some a → f.map l' = some a' → a.fblk = a'.fblk → l = l')
    (hused : ∀ l a, f.map l = some a → inUse.contains a.fblk = true) (hext : f.extents = true) :
    (oneFile f inUse).batch.cur.Ok := by
  have hfile : ∀ i l a, ((oneFile f inUse).batch.cur.files i).map l = some a →
      i = 12 ∧ f.map l = some a := by
    intro i l a ha
    simp only [oneFile] at ha
    split at ha
    · next hi => exact ⟨hi, ha⟩
    · simp [File.map, emptyFile] at ha
  refine ⟨fun i l i' l' a a' ha ha' hsame => ?_, fun i l a ha => hused l a (hfile i l a ha).2,
    fun i hno l a ha => ?_⟩
  · obtain ⟨rfl, hl⟩ := hfile i l a ha
    obtain ⟨rfl, hl'⟩ := hfile i' l' a' ha'
    exact ⟨rfl, hown l l' a a' hl hl' hsame⟩
  · obtain ⟨rfl, -⟩ := hfile i l a ha
    simp only [oneFile, if_true] at hno
    rw [hext] at hno
    cases hno

theorem emptyFile_ok : (oneFile emptyFile []).batch.cur.Ok :=
  oneFile_ok (fun _ _ _ _ h => by simp [File.map, emptyFile] at h)
    (fun _ _ h => by simp [File.map, emptyFile] at h) rfl

end Files
