import OpenExt4.Crypto.Plain
import OpenExt4.Crypto.Unlock

set_option autoImplicit false

/-! # The anti-forensic split

`af_split.c` byte by byte, for a hash `H` with digests of `d` bytes: the diffusion in place and the
merge, with a record of the bytes of the material it reads and of the bytes it writes out. The
standard's split is stated on its own, and the merge undoes it. -/

namespace Luks

open Bytes

variable {d : ℕ}

/-! ## The source -/

/-- One piece of `diffuse`: hash `count` bytes from `off` on behind the counter `i`, and put as many
    bytes of the digest in their place. -/
def diffusePiece (H : List UInt8 → Buf d) (off count i : ℕ) (buf : ℕ → UInt8) : ℕ → UInt8 :=
  overlay buf off count (get8 (H (counterBytes i ++ (List.range count).map fun x => buf (off + x))))

/-- The loop of `diffuse` over the full pieces. -/
def diffuseFull (H : List UInt8 → Buf d) (full : ℕ) (buf : ℕ → UInt8) : ℕ → UInt8 :=
  (List.range full).foldl (fun buf i => diffusePiece H (i * d) d i buf) buf

/-- `diffuse` of the first `len` bytes of a buffer, in place. -/
def diffuseInPlace (H : List UInt8 → Buf d) (len : ℕ) (buf : ℕ → UInt8) : ℕ → UInt8 :=
  let full := len / d
  let tail := len % d
  let buf := diffuseFull H full buf
  if tail ≠ 0 then diffusePiece H (full * d) tail full buf else buf

/-- A buffer that is worked on, and what was read of the material for it. -/
structure Merge where
  bytes : ℕ → UInt8
  reads : List ℕ

/-- A loop `dst[j] = f j dst[j] ^ src[base + j]` over `j < len`. -/
def xorStripe (src : ℕ → UInt8) (f : ℕ → UInt8 → UInt8) (base len : ℕ) (st : Merge) : Merge :=
  (List.range len).foldl (fun st j =>
    { bytes := Function.update st.bytes j (f j (st.bytes j) ^^^ src (base + j))
      reads := st.reads ++ [base + j] }) st

/-- The loop of `af_merge` over the stripes but the last: `n` of them, from number `i` on. -/
def mergeLoop (H : List UInt8 → Buf d) (src : ℕ → UInt8) (keyLen : ℕ) : ℕ → ℕ → Merge → Merge
  | 0, _, st => st
  | n + 1, i, st =>
      let st := xorStripe src (fun _ acc => acc) (i * keyLen) keyLen st
      mergeLoop H src keyLen n (i + 1) { st with bytes := diffuseInPlace H keyLen st.bytes }

/-- `af_merge`, when its memory is there: the bytes behind `out`, and what was read. -/
def afMergeInto (H : List UInt8 → Buf d) (src : ℕ → UInt8) (keyLen stripes : ℕ)
    (out : ℕ → UInt8) : Except Errno Merge :=
  if keyLen = 0 ∨ stripes = 0 then .error .EINVAL
  else if d = 0 then .error .EINVAL
  else
    let st := mergeLoop H src keyLen (stripes - 1) 0 { bytes := fun _ => 0, reads := [] }
    .ok (xorStripe src (fun j _ => st.bytes j) ((stripes - 1) * keyLen) keyLen
      { bytes := out, reads := st.reads })

/-! ## The standard's split -/

/-- The diffusion of the standard: byte `x` comes from the digest of its piece, behind the number of
    the piece; the digest of a last piece that is not full is cut. -/
def diffusion (H : List UInt8 → Buf d) (s : List UInt8) : List UInt8 :=
  (List.range s.length).map fun x =>
    get8 (H (counterBytes (x / d) ++ (s.drop (x / d * d)).take d)) (x % d)

/-- What the stripes of random bytes add up to. -/
def chained (H : List UInt8 → Buf d) (acc : List UInt8) (random : List (List UInt8)) : List UInt8 :=
  random.foldl (fun acc r => diffusion H (xorBytes acc r)) acc

/-- The split of a key: the random stripes, and the stripe that makes them add up to the key. -/
def afSplit (H : List UInt8 → Buf d) (key : List UInt8) (random : List (List UInt8)) : List UInt8 :=
  random.flatten ++ xorBytes (chained H (List.replicate key.length 0) random) key

/-! ## The diffusion -/

/-- The bytes of the piece of byte `x`. -/
def piece (d len x : ℕ) (buf : ℕ → UInt8) : List UInt8 :=
  (List.range (min d (len - x / d * d))).map fun y => buf (x / d * d + y)

theorem diffusePiece_apply (H : List UInt8 → Buf d) (off count i : ℕ) (buf : ℕ → UInt8) (x : ℕ) :
    diffusePiece H off count i buf x = if off ≤ x ∧ x < off + count
      then get8 (H (counterBytes i ++ (List.range count).map fun y => buf (off + y))) (x - off)
      else buf x := overlay_apply ..

/-- The full pieces do not look at each other. -/
theorem diffuseFull_apply (H : List UInt8 → Buf d) (full : ℕ) (buf : ℕ → UInt8) (x : ℕ) :
    diffuseFull H full buf x = if x < full * d
      then get8 (H (counterBytes (x / d) ++ (List.range d).map fun y => buf (x / d * d + y))) (x % d)
      else buf x := by
  induction full generalizing x with
  | zero => simp [diffuseFull]
  | succ full ih =>
      have hturn : diffuseFull H (full + 1) buf
          = diffusePiece H (full * d) d full (diffuseFull H full buf) := by
        rw [diffuseFull, List.range_succ, List.foldl_append]
        rfl
      have hkeep : (List.range d).map (fun y => diffuseFull H full buf (full * d + y))
          = (List.range d).map fun y => buf (full * d + y) :=
        List.map_congr_left fun y _ => by rw [ih, if_neg (by omega)]
      rw [hturn, diffusePiece_apply, Nat.succ_mul, hkeep]
      by_cases hhere : full * d ≤ x ∧ x < full * d + d
      · have hdiv : x / d = full := Nat.div_eq_of_lt_le hhere.1 (by rw [Nat.succ_mul]; exact hhere.2)
        have hmod : x - full * d = x % d := by
          rw [← hdiv, Nat.mul_comm, Nat.mod_eq_sub_mul_div]
        rw [if_pos hhere, if_pos hhere.2, hdiv, hmod]
      · rw [if_neg hhere, ih]
        by_cases hlow : x < full * d
        · rw [if_pos hlow, if_pos (by omega)]
        · rw [if_neg hlow, if_neg (by omega)]

/-- **What the diffusion leaves in each byte**: its byte of the digest of its piece. -/
theorem diffuseInPlace_apply (hd : 0 < d) (H : List UInt8 → Buf d) (len : ℕ) (buf : ℕ → UInt8)
    (x : ℕ) : diffuseInPlace H len buf x = if x < len
      then get8 (H (counterBytes (x / d) ++ piece d len x buf)) (x % d) else buf x := by
  have hdiv := Nat.div_add_mod' len d
  have hmod : len % d < d := Nat.mod_lt _ hd
  have hfull (hx : x < len / d * d) : piece d len x buf
      = (List.range d).map fun y => buf (x / d * d + y) := by
    have hlt : x / d < len / d := Nat.div_lt_of_lt_mul (by rwa [Nat.mul_comm])
    have hmul : (x / d + 1) * d ≤ len / d * d := Nat.mul_le_mul_right _ hlt
    rw [Nat.succ_mul] at hmul
    rw [piece, Nat.min_eq_left (by omega)]
  unfold diffuseInPlace
  by_cases htail : len % d = 0
  · rw [if_neg (not_not.mpr htail), diffuseFull_apply]
    by_cases hx : x < len / d * d
    · rw [if_pos hx, if_pos (by omega), hfull hx]
    · rw [if_neg hx, if_neg (by omega)]
  · have hkeep : (List.range (len % d)).map
          (fun y => diffuseFull H (len / d) buf (len / d * d + y))
        = (List.range (len % d)).map fun y => buf (len / d * d + y) :=
      List.map_congr_left fun y _ => by rw [diffuseFull_apply, if_neg (by omega)]
    rw [if_pos htail, diffusePiece_apply, hkeep, hdiv]
    by_cases hhere : len / d * d ≤ x ∧ x < len
    · have hxdiv : x / d = len / d :=
        Nat.div_eq_of_lt_le hhere.1 (by rw [Nat.succ_mul]; omega)
      have hxmod : x - len / d * d = x % d := by
        rw [← hxdiv, Nat.mul_comm, Nat.mod_eq_sub_mul_div]
      have hpiece : piece d len x buf
          = (List.range (len % d)).map fun y => buf (len / d * d + y) := by
        rw [piece, hxdiv, show min d (len - len / d * d) = len % d by omega]
      rw [if_pos hhere, if_pos hhere.2, hxmod, hpiece, hxdiv]
    · rw [if_neg hhere, diffuseFull_apply]
      by_cases hx : x < len / d * d
      · rw [if_pos hx, if_pos (by omega), hfull hx]
      · rw [if_neg hx, if_neg (by omega)]

/-! ## Buffers as lists -/

/-- The first `len` bytes of a buffer. -/
def bytesOf (len : ℕ) (buf : ℕ → UInt8) : List UInt8 := (List.range len).map buf

@[simp] theorem length_bytesOf (len : ℕ) (buf : ℕ → UInt8) : (bytesOf len buf).length = len := by
  simp [bytesOf]

theorem bytesOf_congr {len : ℕ} {a b : ℕ → UInt8} (h : ∀ x < len, a x = b x) :
    bytesOf len a = bytesOf len b :=
  List.map_congr_left fun x hx => h x (List.mem_range.mp hx)

theorem take_bytesOf (k len : ℕ) (buf : ℕ → UInt8) :
    (bytesOf len buf).take k = bytesOf (min k len) buf := by
  rw [bytesOf, ← List.map_take, List.take_range, bytesOf]

theorem drop_bytesOf (k len : ℕ) (buf : ℕ → UInt8) :
    (bytesOf len buf).drop k = bytesOf (len - k) fun x => buf (k + x) := by
  refine List.ext_getElem (by simp) fun i h h' => ?_
  simp [bytesOf]

theorem piece_eq (len x : ℕ) (buf : ℕ → UInt8) :
    piece d len x buf = ((bytesOf len buf).drop (x / d * d)).take d := by
  refine List.ext_getElem (by simp [piece]) fun i h h' => ?_
  simp [piece, bytesOf]

/-- The diffusion in place is the standard's. -/
theorem bytesOf_diffuseInPlace (hd : 0 < d) (H : List UInt8 → Buf d) (len : ℕ) (buf : ℕ → UInt8) :
    bytesOf len (diffuseInPlace H len buf) = diffusion H (bytesOf len buf) := by
  rw [diffusion, length_bytesOf]
  refine List.map_congr_left fun x hx => ?_
  rw [diffuseInPlace_apply hd, if_pos (List.mem_range.mp hx), piece_eq]

/-! ## The merge -/

/-- Each byte is worked on once. -/
theorem xorStripe_eq (src : ℕ → UInt8) (f : ℕ → UInt8 → UInt8) (base len : ℕ) (st : Merge) :
    xorStripe src f base len st =
      { bytes := fun x => if x < len then f x (st.bytes x) ^^^ src (base + x) else st.bytes x
        reads := st.reads ++ (List.range len).map (base + ·) } := by
  induction len with
  | zero => simp [xorStripe]
  | succ len ih =>
      have hturn : xorStripe src f base (len + 1) st =
          { bytes := Function.update (xorStripe src f base len st).bytes len
              (f len ((xorStripe src f base len st).bytes len) ^^^ src (base + len))
            reads := (xorStripe src f base len st).reads ++ [base + len] } := by
        rw [xorStripe, List.range_succ, List.foldl_append]
        rfl
      rw [hturn, ih, List.range_succ, List.map_append, List.append_assoc]
      congr 1
      funext x
      by_cases hx : x = len
      · subst hx
        simp
      · rw [Function.update_of_ne hx]
        dsimp only
        by_cases hlt : x < len
        · rw [if_pos hlt, if_pos (by omega)]
        · rw [if_neg hlt, if_neg (by omega)]

theorem bytesOf_xorStripe (src : ℕ → UInt8) (base len : ℕ) (st : Merge) :
    bytesOf len (xorStripe src (fun _ acc => acc) base len st).bytes
      = xorBytes (bytesOf len st.bytes) (bytesOf len fun x => src (base + x)) := by
  rw [xorStripe_eq]
  refine List.ext_getElem (by simp [xorBytes]) fun i h _ => ?_
  have hi : i < len := by simpa using h
  simp [bytesOf, xorBytes, hi]

/-- The offsets of `n` stripes from number `i` on. -/
theorem range_stripes (keyLen i n : ℕ) :
    (List.range keyLen).map (i * keyLen + ·) ++ (List.range (n * keyLen)).map ((i + 1) * keyLen + ·)
      = (List.range ((n + 1) * keyLen)).map (i * keyLen + ·) := by
  have hlen : (n + 1) * keyLen = keyLen + n * keyLen := by rw [Nat.succ_mul, Nat.add_comm]
  rw [hlen, List.range_add, List.map_append, List.map_map]
  congr 1
  refine List.map_congr_left fun x _ => ?_
  rw [Function.comp_apply, Nat.succ_mul, Nat.add_assoc]

/-- The material of some stripes, from number `i` on, is in the buffer. -/
def Holds (src : ℕ → UInt8) (base : ℕ) (l : List UInt8) : Prop :=
  bytesOf l.length (fun x => src (base + x)) = l

theorem Holds.append {src : ℕ → UInt8} {base : ℕ} {l₁ l₂ : List UInt8}
    (h : Holds src base (l₁ ++ l₂)) : Holds src base l₁ ∧ Holds src (base + l₁.length) l₂ := by
  unfold Holds bytesOf at h
  rw [List.length_append, List.range_add, List.map_append, List.map_map] at h
  obtain ⟨hfirst, hlast⟩ := List.append_inj h (by simp)
  refine ⟨hfirst, ?_⟩
  rw [Holds, bytesOf]
  refine Eq.trans (List.map_congr_left fun x _ => ?_) hlast
  rw [Function.comp_apply, Nat.add_assoc]

/-- **The loop over the stripes** folds them in, and reads each byte of them once. -/
theorem mergeLoop_eq (hd : 0 < d) (H : List UInt8 → Buf d) {src : ℕ → UInt8} {keyLen : ℕ}
    {random : List (List UInt8)} (hlen : ∀ r ∈ random, r.length = keyLen) (i : ℕ) (st : Merge)
    (hsrc : Holds src (i * keyLen) random.flatten) :
    bytesOf keyLen (mergeLoop H src keyLen random.length i st).bytes
        = chained H (bytesOf keyLen st.bytes) random ∧
      (mergeLoop H src keyLen random.length i st).reads
        = st.reads ++ (List.range (random.length * keyLen)).map (i * keyLen + ·) := by
  induction random generalizing i st with
  | nil => simp [mergeLoop, chained]
  | cons r rest ih =>
      have hr : r.length = keyLen := hlen r List.mem_cons_self
      rw [List.flatten_cons] at hsrc
      obtain ⟨hfirst, hrest⟩ := hsrc.append
      rw [hr, ← Nat.succ_mul] at hrest
      obtain ⟨hbytes, hreads⟩ := ih (fun s hs => hlen s (List.mem_cons_of_mem _ hs)) (i + 1)
        { xorStripe src (fun _ acc => acc) (i * keyLen) keyLen st with
          bytes := diffuseInPlace H keyLen
            (xorStripe src (fun _ acc => acc) (i * keyLen) keyLen st).bytes } hrest
      rw [Holds, hr] at hfirst
      rw [List.length_cons, mergeLoop]
      refine ⟨hbytes.trans ?_, hreads.trans ?_⟩
      · dsimp only
        rw [bytesOf_diffuseInPlace hd, bytesOf_xorStripe, hfirst]
        rfl
      · rw [xorStripe_eq, List.append_assoc, range_stripes]

theorem xorBytes_cancel {a b : List UInt8} (h : a.length = b.length) :
    xorBytes a (xorBytes a b) = b := by
  refine List.ext_getElem (by simp [xorBytes, h]) fun i _ _ => ?_
  simp [xorBytes, ← UInt8.xor_assoc]

theorem length_chained (H : List UInt8 → Buf d) {random : List (List UInt8)} {acc : List UInt8}
    (hlen : ∀ r ∈ random, r.length = acc.length) : (chained H acc random).length = acc.length := by
  induction random generalizing acc with
  | nil => rfl
  | cons r rest ih =>
      have hr : r.length = acc.length := hlen r List.mem_cons_self
      have hstep : (diffusion H (xorBytes acc r)).length = acc.length := by
        simp [diffusion, xorBytes, hr]
      rw [chained, List.foldl_cons]
      exact (ih fun s hs => by rw [hstep, hlen s (List.mem_cons_of_mem _ hs)]).trans hstep

/-- The length of stripes of one length. -/
theorem length_stripes {keyLen : ℕ} {random : List (List UInt8)}
    (hlen : ∀ r ∈ random, r.length = keyLen) : random.flatten.length = random.length * keyLen := by
  induction random with
  | nil => simp
  | cons r rest ih =>
      rw [List.flatten_cons, List.length_append, hlen r List.mem_cons_self,
        ih fun s hs => hlen s (List.mem_cons_of_mem _ hs), List.length_cons, Nat.succ_mul,
        Nat.add_comm]

theorem length_afSplit (H : List UInt8 → Buf d) {key : List UInt8} {random : List (List UInt8)}
    (hlen : ∀ r ∈ random, r.length = key.length) :
    (afSplit H key random).length = key.length * (random.length + 1) := by
  have hlast := @length_chained _ H random (List.replicate key.length 0) (by simpa using hlen)
  rw [List.length_replicate] at hlast
  rw [afSplit, List.length_append, length_stripes hlen, xorBytes, List.length_zipWith, hlast, Nat.min_self,
    Nat.mul_succ, Nat.mul_comm]

/-- **The merge inverts the split.** For every hash, every key and any random stripes of its length,
    on a buffer that holds the split key, `af_merge` reads each byte of the material once, puts the
    key where its result goes and leaves the bytes behind it alone. -/
theorem afMergeInto_afSplit (hd : 0 < d) (H : List UInt8 → Buf d) {key : List UInt8}
    (hkey : 0 < key.length) {random : List (List UInt8)}
    (hlen : ∀ r ∈ random, r.length = key.length) {src : ℕ → UInt8}
    (hsrc : Holds src 0 (afSplit H key random)) (out : ℕ → UInt8) :
    afMergeInto H src key.length (random.length + 1) out = .ok
      { bytes := overlay out 0 key.length (key.getD · 0)
        reads := List.range (key.length * (random.length + 1)) } := by
  obtain ⟨hrandom, hlast⟩ := hsrc.append
  rw [length_stripes hlen, Nat.zero_add] at hlast
  obtain ⟨hacc, hreads⟩ := mergeLoop_eq hd H hlen 0 { bytes := fun _ => 0, reads := [] }
    (by rwa [Nat.zero_mul])
  have hzero : bytesOf key.length (fun _ => (0 : UInt8)) = List.replicate key.length 0 := by
    simp [bytesOf]
  rw [hzero] at hacc
  have hsum : (chained H (List.replicate key.length 0) random).length = key.length := by
    rw [length_chained H (by simpa using hlen), List.length_replicate]
  have hwidth : (xorBytes (chained H (List.replicate key.length 0) random) key).length
      = key.length := by
    rw [xorBytes, List.length_zipWith, hsum, Nat.min_self]
  rw [Holds, hwidth] at hlast
  rw [afMergeInto, if_neg (by omega), if_neg (by omega)]
  dsimp only
  rw [Nat.add_sub_cancel, xorStripe_eq, hreads]
  congr 2
  · funext x
    rw [overlay_apply]
    by_cases hx : x < key.length
    · -- the last stripe cancels what the others add up to
      have hbyte := congrArg (fun l => l.getD x 0) (xorBytes_cancel hsum)
      rw [← hlast, ← hacc] at hbyte
      rw [if_pos hx, if_pos ⟨Nat.zero_le x, by omega⟩, Nat.sub_zero, ← hbyte]
      simp [bytesOf, xorBytes, hx]
    · rw [if_neg hx, if_neg (by omega)]
  · rw [Nat.mul_succ, List.range_add, Nat.mul_comm key.length]
    simp

/-- A list holds itself. -/
theorem holds_getD (l : List UInt8) : Holds (l.getD · 0) 0 l := by
  refine List.ext_getElem (by simp) fun i _ h => ?_
  simp [bytesOf, h]

/-- A checksum of two bytes in the hash's place. -/
def sumHash : List UInt8 → Buf 2 := fun l i => l.foldl (· + 3 * ·) (UInt8.ofNat i)

theorem afMergeInto_afSplit_sum :
    afMergeInto sumHash ((afSplit sumHash [1, 2, 3] [[40, 50, 60], [70, 80, 90]]).getD · 0) 3 3
        (fun _ => 255) = .ok
      { bytes := overlay (fun _ => 255) 0 3 (List.getD [1, 2, 3] · 0)
        reads := List.range 9 } :=
  @afMergeInto_afSplit _ (by decide) sumHash [1, 2, 3] (by decide) _ (by decide) _ (holds_getD _) _

/-! ## The merge of the unlock -/

/-- The turns cover the length. -/
theorem le_turns_mul {n : ℕ} (hn : 0 < n) (len : ℕ) : len ≤ SectorCipher.turns len n * n := by
  have hdiv := Nat.div_add_mod' (len + n - 1) n
  have hmod := Nat.mod_lt (len + n - 1) hn
  unfold SectorCipher.turns
  omega

theorem toList_eq {n : ℕ} (b : Buf n) : toList b = (List.range n).map (get8 b) := by
  refine List.ext_getElem (List.length_ofFn.trans (by simp)) fun i h h' => ?_
  have hi : i < n := by simpa using h'
  rw [List.getElem_map, List.getElem_range, get8, dif_pos hi]
  exact List.getElem_ofFn h

/-- The chunks of `diffuse` are the pieces of the diffusion. -/
theorem diffuse_eq (mc : Machine) (hash : CryptoHash) {n : ℕ} (i : ℕ) {src : List UInt8}
    (hn : src.length ≤ n * hash.size) :
    diffuse mc hash n i src = (List.range src.length).map fun x =>
      get8 (mc.sha hash (counterBytes (i + x / hash.size)
        ++ (src.drop (x / hash.size * hash.size)).take hash.size)) (x % hash.size) := by
  have hsize := hash.size_pos
  induction n generalizing i src with
  | zero =>
      have hnil : src = [] := List.eq_nil_of_length_eq_zero (by omega)
      simp [diffuse, hnil]
  | succ n ih =>
      rw [Nat.succ_mul] at hn
      have hrest := @ih (i + 1) (src.drop hash.size) (by rw [List.length_drop]; omega)
      have hchunk : (toList (mc.sha hash (counterBytes i ++ src.take hash.size))).take
            (src.take hash.size).length
          = (List.range (min hash.size src.length)).map
            (get8 (mc.sha hash (counterBytes i ++ src.take hash.size))) := by
        rw [toList_eq, ← List.map_take, List.take_range, List.length_take, Nat.min_right_comm,
          Nat.min_self]
      have hsplit : src.length = min hash.size src.length + (src.length - hash.size) := by omega
      rw [diffuse, hrest, hchunk, List.length_drop]
      conv_rhs => rw [hsplit, List.range_add, List.map_append, List.map_map]
      congr 1
      · refine List.map_congr_left fun x hx => ?_
        have hlt : x < hash.size := by have := List.mem_range.mp hx; omega
        rw [Nat.div_eq_of_lt hlt, Nat.mod_eq_of_lt hlt, Nat.zero_mul, List.drop_zero, Nat.add_zero]
      · refine List.map_congr_left fun x hx => ?_
        have hmin : min hash.size src.length = hash.size := by
          have := List.mem_range.mp hx
          omega
        rw [Function.comp_apply, hmin, Nat.add_div_left _ hsize, Nat.add_mod_left, List.drop_drop,
          Nat.succ_mul, Nat.add_comm (x / hash.size * hash.size), Nat.add_assoc i 1,
          Nat.add_comm 1]

/-- The loop over the stripes, on a list of the material. -/
theorem mergeStripes_eq (mc : Machine) (hash : CryptoHash) (src : ℕ → UInt8) (keyLen n i : ℕ)
    {len : ℕ} (hn : n * keyLen ≤ len) (st : Merge) :
    mergeStripes mc hash keyLen n (bytesOf keyLen st.bytes)
        (bytesOf len fun x => src (i * keyLen + x))
      = (bytesOf keyLen (mergeLoop (mc.sha hash) src keyLen n i st).bytes,
        bytesOf (len - n * keyLen) fun x => src ((i + n) * keyLen + x)) := by
  induction n generalizing i len st with
  | zero => simp [mergeStripes, mergeLoop]
  | succ n ih =>
      rw [Nat.succ_mul] at hn
      have hfirst : xorBytes (bytesOf keyLen st.bytes)
            ((bytesOf len fun x => src (i * keyLen + x)).take keyLen)
          = bytesOf keyLen (xorStripe src (fun _ acc => acc) (i * keyLen) keyLen st).bytes := by
        rw [bytesOf_xorStripe, take_bytesOf, Nat.min_eq_left (by omega)]
      have hdiffuse : diffuse mc hash (SectorCipher.turns keyLen hash.size) 0
            (bytesOf keyLen (xorStripe src (fun _ acc => acc) (i * keyLen) keyLen st).bytes)
          = bytesOf keyLen (diffuseInPlace (mc.sha hash) keyLen
            (xorStripe src (fun _ acc => acc) (i * keyLen) keyLen st).bytes) := by
        rw [bytesOf_diffuseInPlace hash.size_pos,
          diffuse_eq mc hash 0 ((length_bytesOf _ _).trans_le (le_turns_mul hash.size_pos keyLen)),
          diffusion]
        simp only [Nat.zero_add]
      rw [mergeStripes, hfirst, hdiffuse, drop_bytesOf]
      have hrest : n * keyLen ≤ len - keyLen := by omega
      have hnext : (bytesOf (len - keyLen) fun x => src (i * keyLen + (keyLen + x)))
          = bytesOf (len - keyLen) fun x => src ((i + 1) * keyLen + x) :=
        bytesOf_congr fun x _ => by rw [Nat.succ_mul, Nat.add_assoc]
      rw [hnext, ih (i + 1) hrest
        { xorStripe src (fun _ acc => acc) (i * keyLen) keyLen st with
          bytes := diffuseInPlace (mc.sha hash) keyLen
            (xorStripe src (fun _ acc => acc) (i * keyLen) keyLen st).bytes },
        mergeLoop, Nat.add_right_comm i 1 n, Nat.add_assoc i n 1, Nat.sub_sub, Nat.add_comm keyLen,
        ← Nat.succ_mul]

/-- `af_merge` of the unlock is the byte-wise one. -/
theorem afMerge_eq (mc : Machine) (hash : CryptoHash) (src : ℕ → UInt8) {keyLen stripes : ℕ}
    (hkey : 0 < keyLen) (hstripes : 0 < stripes) (out : ℕ → UInt8) {st : Merge}
    (h : afMergeInto (mc.sha hash) src keyLen stripes out = .ok st) :
    bytesOf keyLen st.bytes = afMerge mc (bytesOf (stripes * keyLen) src) keyLen stripes hash := by
  have hlast : (stripes - 1) * keyLen + keyLen = stripes * keyLen := by
    rw [← Nat.succ_mul, Nat.succ_eq_add_one, Nat.sub_add_cancel hstripes]
  have hzero : List.replicate keyLen 0 = bytesOf keyLen fun _ => (0 : UInt8) := by simp [bytesOf]
  have hloop := @mergeStripes_eq mc hash src keyLen (stripes - 1) 0 (stripes * keyLen)
    (by omega) { bytes := fun _ => 0, reads := [] }
  simp only [Nat.zero_mul, Nat.zero_add] at hloop
  rw [afMergeInto, if_neg (by omega), if_neg hash.size_pos.ne', Except.ok.injEq] at h
  rw [← h, xorStripe_eq, afMerge, hzero, hloop]
  dsimp only
  rw [take_bytesOf, Nat.min_eq_left (by omega)]
  refine List.ext_getElem (by simp [xorBytes]) fun x hx _ => ?_
  have hx : x < keyLen := by simpa using hx
  simp [bytesOf, xorBytes, hx]

end Luks
