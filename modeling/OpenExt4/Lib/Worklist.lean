import Mathlib.Data.List.Nodup
import Mathlib.Data.List.Lattice
import Mathlib.Data.Set.Card
import Mathlib.Logic.Relation

set_option autoImplicit false

/-! # Work lists

A graph is walked with a list of nodes still to take: a node is taken off, and those of its
successors that are neither taken nor on the list go onto it. When the list is empty, the nodes that
were taken are the ones that can be reached, each once. -/

namespace Worklist

variable {α : Type}

/-- A node that the successors lead to from `root`. -/
def Reaches (succ : α → List α) (root : α) : α → Prop :=
  Relation.ReflTransGen (fun x y => y ∈ succ x) root

variable {succ : α → List α} {root : α}

theorem Reaches.refl : Reaches succ root root := Relation.ReflTransGen.refl

theorem Reaches.step {x y : α} (hx : Reaches succ root x) (hy : y ∈ succ x) :
    Reaches succ root y :=
  Relation.ReflTransGen.tail hx hy

/-- What is reached is the root or a successor of what is reached. -/
theorem Reaches.root_or_succ {x : α} (h : Reaches succ root x) :
    x = root ∨ ∃ d, Reaches succ root d ∧ x ∈ succ d := by
  rcases Relation.ReflTransGen.cases_tail h with heq | ⟨d, hd, hx⟩
  · exact .inl heq
  · exact .inr ⟨d, hd, hx⟩

/-- More successors reach more. -/
theorem Reaches.mono {succ' : α → List α} (hsub : ∀ x, ∀ y ∈ succ x, y ∈ succ' x) {x : α}
    (h : Reaches succ root x) : Reaches succ' root x :=
  Relation.ReflTransGen.mono (fun x y hy => hsub x y hy) _ _ h

/-- The walk of the graph has `todo` to take, has taken `taken`, and has still to look at the
    successors `pending` of the last node it took. -/
structure Explored (succ : α → List α) (root : α) (todo taken pending : List α) : Prop where
  nodup : (todo ++ taken).Nodup
  root_mem : root ∈ todo ++ taken
  closed : ∀ x ∈ taken, ∀ y ∈ succ x, y ∈ todo ++ taken ∨ y ∈ pending
  reached : ∀ x ∈ todo ++ taken, Reaches succ root x
  pendingReached : ∀ x ∈ pending, Reaches succ root x

theorem Explored.start : Explored succ root [root] [] [] where
  nodup := by simp
  root_mem := by simp
  closed := by simp
  reached := by
    intro x hx
    obtain rfl : x = root := by simpa using hx
    exact Reaches.refl
  pendingReached := by simp

variable {x : α} {todo taken pending : List α}

/-- The next node is taken. -/
theorem Explored.take (h : Explored succ root (x :: todo) taken []) :
    Explored succ root todo (taken ++ [x]) (succ x) := by
  have hperm : (x :: todo ++ taken).Perm (todo ++ (taken ++ [x])) := by
    rw [← List.append_assoc, List.cons_append]
    exact (List.perm_append_singleton x (todo ++ taken)).symm
  have hx := h.reached x (by simp)
  refine ⟨hperm.nodup_iff.mp h.nodup, hperm.mem_iff.mp h.root_mem, ?_,
    fun y hy => h.reached y (hperm.mem_iff.mpr hy), fun y hy => hx.step hy⟩
  intro d hd y hy
  rcases List.mem_append.mp hd with hold | hnew
  · rcases h.closed d hold y hy with hin | hpend
    · exact .inl (hperm.mem_iff.mp hin)
    · exact absurd hpend List.not_mem_nil
  · obtain rfl : d = x := by simpa using hnew
    exact .inr hy

/-- A successor that was not met before goes onto the list. -/
theorem Explored.push (h : Explored succ root todo taken (x :: pending))
    (hnew : x ∉ todo ++ taken) : Explored succ root (x :: todo) taken pending := by
  refine ⟨List.nodup_cons.mpr ⟨hnew, h.nodup⟩, List.mem_cons_of_mem _ h.root_mem, ?_, ?_,
    fun y hy => h.pendingReached y (List.mem_cons_of_mem _ hy)⟩
  · intro d hd y hy
    rcases h.closed d hd y hy with hin | hpend
    · exact .inl (List.mem_cons_of_mem _ hin)
    · rcases List.mem_cons.mp hpend with rfl | hrest
      · exact .inl List.mem_cons_self
      · exact .inr hrest
  · intro y hy
    rcases List.mem_cons.mp hy with rfl | hold
    · exact h.pendingReached y List.mem_cons_self
    · exact h.reached y hold

/-- A successor that was met before is passed over. -/
theorem Explored.pass (h : Explored succ root todo taken (x :: pending))
    (hold : x ∈ todo ++ taken) : Explored succ root todo taken pending := by
  refine ⟨h.nodup, h.root_mem, ?_, h.reached,
    fun y hy => h.pendingReached y (List.mem_cons_of_mem _ hy)⟩
  intro d hd y hy
  rcases h.closed d hd y hy with hin | hpend
  · exact .inl hin
  · rcases List.mem_cons.mp hpend with rfl | hrest
    · exact .inl hold
    · exact .inr hrest

/-- **The end of the walk**: with nothing left to take, the nodes that were taken are those that are
    reached. -/
theorem Explored.mem_taken_iff (h : Explored succ root [] taken []) (y : α) :
    y ∈ taken ↔ Reaches succ root y := by
  constructor
  · intro hy
    exact h.reached y hy
  · intro hy
    induction hy with
    | refl => exact h.root_mem
    | @tail d y _ hstep ih =>
        rcases h.closed d ih y hstep with hin | hpend
        · exact hin
        · exact absurd hpend List.not_mem_nil

/-- A walk of a graph whose nodes lie in `nodes` never holds more of them than there are. -/
theorem Explored.length_le (h : Explored succ root todo taken pending) {nodes : List α}
    (hnodes : ∀ y, Reaches succ root y → y ∈ nodes) :
    todo.length + taken.length ≤ nodes.length := by
  have hsub := List.subperm_of_subset h.nodup fun y hy => hnodes y (h.reached y hy)
  have hlen := hsub.length_le
  rwa [List.length_append] at hlen

/-! ## Counting what lists name -/

/-- As many names as distinct names are in a list whose names are all different, and only there. -/
theorem length_eq_ncard_iff [DecidableEq α] {l : List α} {s : Set α} (hmem : ∀ y, y ∈ s ↔ y ∈ l) :
    l.length = s.ncard ↔ l.Nodup := by
  have hset : s = (l.toFinset : Set α) := by
    ext y
    rw [hmem y, Finset.mem_coe, List.mem_toFinset]
  have hcard : l.toFinset.card = l.length ↔ l.Nodup := Multiset.toFinset_card_eq_card_iff_nodup
  rw [hset, Set.ncard_coe_finset, eq_comm, hcard]

/-- No node is named by two nodes of `from'`, nor twice by one. -/
def NamedOnce (names : α → List α) (p : α → Prop) : Prop :=
  (∀ d, p d → (names d).Nodup) ∧ ∀ d e, p d → p e → d ≠ e → List.Disjoint (names d) (names e)

/-- Over a list of different nodes, it means that the names put after each other are different. -/
theorem namedOnce_iff_nodup {names : α → List α} {p : α → Prop} {l : List α} (hl : l.Nodup)
    (hmem : ∀ d, d ∈ l ↔ p d) : NamedOnce names p ↔ (l.flatMap names).Nodup := by
  rw [List.nodup_flatMap, NamedOnce]
  constructor
  · rintro ⟨heach, hapart⟩
    refine ⟨fun d hd => heach d ((hmem d).mp hd), ?_⟩
    exact List.Pairwise.imp_of_mem
      (fun hd he hne => hapart _ _ ((hmem _).mp hd) ((hmem _).mp he) hne) hl
  · rintro ⟨heach, hapart⟩
    have hsymm : Std.Symm (Function.onFun List.Disjoint names) :=
      ⟨fun _ _ hdisj => List.Disjoint.symm hdisj⟩
    refine ⟨fun d hd => heach d ((hmem d).mpr hd), fun d e hd he hne => ?_⟩
    exact hapart.forall ((hmem d).mpr hd) ((hmem e).mpr he) hne

end Worklist
