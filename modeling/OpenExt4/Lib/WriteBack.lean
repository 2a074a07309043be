import Mathlib.Logic.Function.Basic

set_option autoImplicit false

/-! # Write-back caches

A cache in front of a store is transparent if reading through it gives what was written last. That
is a property of each place on its own: of the line the cache holds of it, if any, and of what is
stored there. Every step of a cache is one of a few moves of one place, and each keeps it. -/

namespace WriteBack

variable {ι α : Type}

/-- The valid contents a cache holds of a place, and whether the store still has to get them. -/
structure Line (α : Type) where
  data : α
  dirty : Bool

/-- A place is transparent: if its latest contents are known, a line holds them, and without a
    line, or behind a clean one, they are stored. -/
def At (latest : Option α) (line : Option (Line α)) (stored : α) : Prop :=
  ∀ d, latest = some d →
    (∀ l, line = some l → l.data = d ∧ (l.dirty = false → stored = d)) ∧
      (line = none → stored = d)

/-- A cache is transparent if all places are. -/
def Transparent (latest : ι → Option α) (line : ι → Option (Line α)) (store : ι → α) : Prop :=
  ∀ i, At (latest i) (line i) (store i)

/-- What a read through the cache brings. -/
def read (line : Option (Line α)) (stored : α) : α :=
  match line with
  | some l => l.data
  | none => stored

namespace At

variable {latest : Option α} {line : Option (Line α)} {l : Line α} {stored d : α}

/-- A read brings the latest contents. -/
theorem read (h : At (some d) line stored) : WriteBack.read line stored = d := by
  cases line with
  | none => exact (h d rfl).2 rfl
  | some l => exact ((h d rfl).1 l rfl).1

/-- Nothing is owed to a place whose contents nobody knows. -/
theorem unknown : At none line stored := by
  intro d hd
  exact absurd hd.symm (Option.some_ne_none d)

/-- What no line holds is what is stored. -/
theorem absent : At (some stored) none stored := by
  intro d hd
  exact ⟨fun l hl => absurd hl.symm (Option.some_ne_none l), fun _ => Option.some.inj hd⟩

/-- A clean line can be dropped. -/
theorem drop (h : At latest (some l) stored) (hclean : l.dirty = false) : At latest none stored := by
  intro d hd
  exact ⟨fun l hl => absurd hl.symm (Option.some_ne_none l), fun _ => ((h d hd).1 l rfl).2 hclean⟩

/-- A line read from the store is a clean copy of it. -/
theorem load (h : At latest none stored) : At latest (some ⟨stored, false⟩) stored := by
  intro d hd
  have hstored := (h d hd).2 rfl
  refine ⟨fun l hl => ?_, fun hn => absurd hn (Option.some_ne_none _)⟩
  cases hl
  exact ⟨hstored, fun _ => hstored⟩

/-- What is written to a line is owed to the store. -/
theorem write : At (some d) (some ⟨d, true⟩) stored := by
  intro d' hd
  cases hd
  refine ⟨fun l hl => ?_, fun hn => absurd hn (Option.some_ne_none _)⟩
  cases hl
  exact ⟨rfl, fun hn => absurd hn.symm Bool.false_ne_true⟩

/-- A line that is written back is clean. -/
theorem writeBack (h : At latest (some l) stored) : At latest (some ⟨l.data, false⟩) l.data := by
  intro d hd
  have hdata := ((h d hd).1 l rfl).1
  refine ⟨fun l' hl => ?_, fun hn => absurd hn (Option.some_ne_none _)⟩
  cases hl
  exact ⟨hdata, fun _ => hdata⟩

/-- Behind a dirty line the store may hold anything. -/
theorem torn (h : At latest (some l) stored) (hdirty : l.dirty = true) (stored' : α) :
    At latest (some l) stored' := by
  intro d hd
  refine ⟨fun l' hl => ?_, fun hn => absurd hn (Option.some_ne_none _)⟩
  cases hl
  exact ⟨((h d hd).1 l rfl).1, fun hn => absurd (hn.symm.trans hdirty) Bool.false_ne_true⟩

/-- A write past the cache that is put into the line too. -/
theorem through (hline : ∀ l, line = some l → l.data = d) : At (some d) line d := by
  intro d' hd
  cases hd
  exact ⟨fun l hl => ⟨hline l hl, fun _ => rfl⟩, fun _ => rfl⟩

/-- A change of the contents that is made in the line and in the store. -/
theorem map (f : α → α) (h : At latest line stored) :
    At (latest.map f) (line.map fun l => ⟨f l.data, l.dirty⟩) (f stored) := by
  intro d' hd'
  obtain ⟨d, hd, rfl⟩ := Option.map_eq_some_iff.mp hd'
  refine ⟨fun l' hl' => ?_, fun hn => congrArg f ((h d hd).2 (Option.map_eq_none_iff.mp hn))⟩
  obtain ⟨l, hl, rfl⟩ := Option.map_eq_some_iff.mp hl'
  obtain ⟨hdata, hclean⟩ := (h d hd).1 l hl
  exact ⟨congrArg f hdata, fun hdirty => congrArg f (hclean hdirty)⟩

end At

end WriteBack
