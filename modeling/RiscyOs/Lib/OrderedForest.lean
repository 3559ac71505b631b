import Mathlib.Data.List.Basic
import Mathlib.Algebra.Order.Ring.Int

/-!
# Ordered forests and their tours

A forest is written first-child next-sibling: `cons a children siblings` is a tree with root
label `a`, followed by the trees of `siblings`. Its *tour* enters and leaves every node in turn,
which is how a flat format stores a tree.

Everything a scanner recovers from the tour is computed twice here, once from the forest and once
from a list of events, and the two agree on the tour of a forest:

* `depths_tour`: a running depth counter gives every node its depth, in preorder (`visits`).
* `ancestry_tour`: a running stack gives every node its ancestors (`paths`).
* `skip_tour`: counting enters and leaves skips exactly the children of a node.
-/

/-- A list of ordered trees, in first-child next-sibling form. -/
inductive Forest (α : Type*) where
  | nil
  | cons (label : α) (children siblings : Forest α)
  deriving Repr, DecidableEq

/-- One step of a tour. -/
inductive Event (α : Type*) where
  | enter (a : α)
  | leave
  deriving Repr, DecidableEq

namespace Forest

variable {α β : Type*}

/-! ## Functions of a forest -/

/-- The labels at the top. -/
def roots : Forest α → List α
  | nil => []
  | cons a _ sib => a :: roots sib

/-- Every node with its depth, in preorder; the roots are at depth `d`. -/
def visits (d : Nat) : Forest α → List (α × Nat)
  | nil => []
  | cons a ch sib => (a, d) :: (visits (d + 1) ch ++ visits d sib)

/-- Every node with its ancestors, nearest first, in preorder; the roots have ancestors `anc`. -/
def paths (anc : List α) : Forest α → List (α × List α)
  | nil => []
  | cons a ch sib => (a, anc) :: (paths (a :: anc) ch ++ paths anc sib)

/-- Every node with its children, in preorder. -/
def subtrees : Forest α → List (α × Forest α)
  | nil => []
  | cons a ch sib => (a, ch) :: (subtrees ch ++ subtrees sib)

/-- All labels, in preorder. -/
def labels : Forest α → List α
  | nil => []
  | cons a ch sib => a :: (labels ch ++ labels sib)

/-- The number of levels. -/
def levels : Forest α → Nat
  | nil => 0
  | cons _ ch sib => max (levels ch + 1) (levels sib)

/-- Relabel every node. -/
def map (f : α → β) : Forest α → Forest β
  | nil => nil
  | cons a ch sib => cons (f a) (map f ch) (map f sib)

/-- Enter and leave every node in turn. -/
def tour : Forest α → List (Event α)
  | nil => []
  | cons a ch sib => .enter a :: (tour ch ++ .leave :: tour sib)

theorem visits_eq_paths (F : Forest α) (anc : List α) :
    F.visits anc.length = (F.paths anc).map fun p => (p.1, p.2.length) := by
  induction F generalizing anc with
  | nil => rfl
  | cons a ch sib ihc ihs => simp [visits, paths, ← ihc (a :: anc), ← ihs anc]

theorem visits_map (f : α → β) (F : Forest α) (d : Nat) :
    (F.map f).visits d = (F.visits d).map fun p => (f p.1, p.2) := by
  induction F generalizing d with
  | nil => rfl
  | cons a ch sib ihc ihs => simp [map, visits, ihc, ihs]

theorem subtrees_map (f : α → β) (F : Forest α) :
    (F.map f).subtrees = F.subtrees.map fun p => (f p.1, p.2.map f) := by
  induction F with
  | nil => rfl
  | cons a ch sib ihc ihs => simp [map, subtrees, ihc, ihs]

theorem paths_map_fst (F : Forest α) (anc : List α) : (F.paths anc).map Prod.fst = F.labels := by
  induction F generalizing anc with
  | nil => rfl
  | cons a ch sib ihc ihs => simp [paths, labels, ihc, ihs]

theorem paths_map (f : α → β) (F : Forest α) (anc : List α) :
    (F.map f).paths (anc.map f) = (F.paths anc).map fun p => (f p.1, p.2.map f) := by
  induction F generalizing anc with
  | nil => rfl
  | cons a ch sib ihc ihs => simp [map, paths, ← ihc, ← ihs]

theorem labels_map (f : α → β) (F : Forest α) : (F.map f).labels = F.labels.map f := by
  induction F with
  | nil => rfl
  | cons a ch sib ihc ihs => simp [map, labels, ihc, ihs]

theorem roots_map (f : α → β) (F : Forest α) : (F.map f).roots = F.roots.map f := by
  induction F with
  | nil => rfl
  | cons a ch sib _ ihs => simp [map, roots, ihs]

/-- The depth of the deepest node; the roots are at depth `0`. -/
def height (F : Forest α) : Nat := F.levels - 1

theorem length_lt_levels {F : Forest α} {a : α} {anc stk : List α} (h : (a, anc) ∈ F.paths stk) :
    anc.length < stk.length + F.levels := by
  induction F generalizing stk with
  | nil => simp [paths] at h
  | cons b ch sib ihc ihs =>
    simp only [paths, List.mem_cons, Prod.mk.injEq, List.mem_append] at h
    rw [levels]
    rcases h with ⟨-, rfl⟩ | h | h
    · omega
    · have := ihc h
      rw [List.length_cons] at this
      omega
    · have := ihs h
      omega

theorem length_le_height {F : Forest α} {a : α} {anc : List α} (h : (a, anc) ∈ F.paths []) :
    anc.length ≤ F.height := by
  have := length_lt_levels h
  rw [List.length_nil] at this
  unfold height
  omega

/-- Every ancestor of a node is a node. -/
theorem mem_labels_of_mem_paths {F : Forest α} {a c : α} {anc stk : List α}
    (h : (a, anc) ∈ F.paths stk) (hc : c ∈ anc) : c ∈ F.labels ∨ c ∈ stk := by
  induction F generalizing stk with
  | nil => simp [paths] at h
  | cons b ch sib ihc ihs =>
    simp only [paths, List.mem_cons, Prod.mk.injEq, List.mem_append] at h
    simp only [labels, List.mem_cons, List.mem_append]
    rcases h with ⟨-, rfl⟩ | h | h
    · exact .inr hc
    · rcases ihc h with hch | hstk
      · exact .inl (.inr (.inl hch))
      · rcases List.mem_cons.1 hstk with rfl | hstk
        · exact .inl (.inl rfl)
        · exact .inr hstk
    · exact (ihs h).imp_left fun hsib => .inr (.inr hsib)

/-- The nearest ancestor of a node has the others as its ancestors. -/
theorem mem_paths_parent {F : Forest α} {a c : α} {anc stk : List α}
    (h : (a, c :: anc) ∈ F.paths stk) : (c, anc) ∈ F.paths stk ∨ stk = c :: anc := by
  induction F generalizing stk with
  | nil => simp [paths] at h
  | cons b ch sib ihc ihs =>
    simp only [paths, List.mem_cons, Prod.mk.injEq, List.mem_append] at h ⊢
    rcases h with ⟨-, rfl⟩ | h | h
    · exact .inr rfl
    · rcases ihc h with hch | hstk
      · exact .inl (.inr (.inl hch))
      · obtain ⟨rfl, rfl⟩ := List.cons.inj hstk
        exact .inl (.inl ⟨rfl, rfl⟩)
    · exact (ihs h).imp_left fun hsib => .inr (.inr hsib)

theorem levels_le_length_labels (F : Forest α) : F.levels ≤ F.labels.length := by
  induction F with
  | nil => exact le_rfl
  | cons a ch sib ihc ihs =>
    rw [levels, labels, List.length_cons, List.length_append]
    omega

/-- A running maximum over the visits is the depth of the deepest one. -/
theorem foldl_max_visits (F : Forest α) (d m : Nat) :
    (F.visits d).foldl (fun acc p => max acc p.2) m =
      if F.levels = 0 then m else max m (d + F.height) := by
  induction F generalizing d m with
  | nil => rfl
  | cons a ch sib ihc ihs =>
    have hne : max (ch.levels + 1) sib.levels ≠ 0 := by omega
    rw [visits, List.foldl_cons, List.foldl_append, ihc, ihs, levels, if_neg hne]
    have hch : (if ch.levels = 0 then max m d else max (max m d) (d + 1 + ch.height)) =
        max m (d + ch.levels) := by
      unfold height
      split_ifs <;> omega
    rw [hch]
    simp only [height, levels]
    -- the siblings count only when there are any
    cases sib.levels with
    | zero => rw [if_pos rfl, Nat.max_zero, Nat.add_sub_cancel]
    | succ y =>
      rw [if_neg y.succ_ne_zero, Nat.add_max_add_right, Nat.add_sub_cancel, Nat.add_sub_cancel,
        max_assoc, Nat.add_max_add_left]

/-! ## Running over a list of events -/

/-- The entered nodes with a running depth, starting at depth `d`. -/
def depths (d : Int) : List (Event α) → List (α × Int)
  | [] => []
  | .enter a :: es => (a, d) :: depths (d + 1) es
  | .leave :: es => depths (d - 1) es

/-- The entered nodes. -/
def entered : List (Event α) → List α
  | [] => []
  | .enter a :: es => a :: entered es
  | .leave :: es => entered es

/-- The entered nodes with a running stack. -/
def ancestry (stk : List α) : List (Event α) → List (α × List α)
  | [] => []
  | .enter a :: es => (a, stk) :: ancestry (a :: stk) es
  | .leave :: es => ancestry stk.tail es

/-- Drop events until `d` more nodes have been left than entered. -/
def skip : Nat → List (Event α) → List (Event α)
  | 0, es => es
  | _ + 1, [] => []
  | d + 1, .enter _ :: es => skip (d + 2) es
  | d + 1, .leave :: es => skip d es

theorem skip_zero (es : List (Event α)) : skip 0 es = es := by cases es <;> rfl

theorem skip_nil (d : Nat) : skip d ([] : List (Event α)) = [] := by
  cases d <;> rfl

theorem depths_tour (F : Forest α) (d : Nat) (es : List (Event α)) :
    depths d (F.tour ++ es) = (F.visits d).map (fun p => (p.1, (p.2 : Int))) ++ depths d es := by
  induction F generalizing d es with
  | nil => rfl
  | cons a ch sib ihc ihs =>
    have hback : ((d + 1 : Nat) : Int) - 1 = d := by omega
    have hc := ihc (d + 1) (.leave :: (sib.tour ++ es))
    rw [depths, hback, ihs] at hc
    simp only [tour, visits, List.cons_append, List.append_assoc, depths, List.map_cons,
      List.map_append]
    exact congrArg _ hc

theorem depths_map_fst (d : Int) (es : List (Event α)) :
    (depths d es).map Prod.fst = entered es := by
  induction es generalizing d with
  | nil => rfl
  | cons e es ih => cases e <;> simp [depths, entered, ih]

/-- The depth goes up by one for every node entered at most. -/
theorem depths_head_le {d d' : Int} {a : α} {es : List (Event α)} {L : List (α × Int)}
    (h : depths d es = (a, d') :: L) : d' ≤ d := by
  induction es generalizing d with
  | nil => cases h
  | cons e es ih =>
    cases e with
    | enter b =>
      obtain ⟨hhead, -⟩ := List.cons.inj h
      exact (Prod.mk.inj hhead).2.ge
    | leave => exact (ih h).trans (Int.sub_le_self d (by decide))

/-- A depth is no further from the first one than there are events. -/
theorem bounds_of_mem_depths {d : Int} {es : List (Event α)} {p : α × Int} (h : p ∈ depths d es) :
    d - es.length ≤ p.2 ∧ p.2 ≤ d + es.length := by
  induction es generalizing d with
  | nil => cases h
  | cons e es ih =>
    rw [List.length_cons]
    cases e with
    | enter b =>
      rcases List.mem_cons.1 h with rfl | h
      · dsimp only
        omega
      · have := ih h
        omega
    | leave =>
      have := ih (d := d - 1) h
      omega

theorem entered_append (es es' : List (Event α)) :
    entered (es ++ es') = entered es ++ entered es' := by
  induction es with
  | nil => rfl
  | cons e es ih => cases e <;> simp [entered, ih]

theorem entered_tour (F : Forest α) : entered F.tour = F.labels := by
  induction F with
  | nil => rfl
  | cons a ch sib ihc ihs => simp [tour, entered, labels, entered_append, ihc, ihs]

theorem ancestry_tour (F : Forest α) (stk : List α) (es : List (Event α)) :
    ancestry stk (F.tour ++ es) = F.paths stk ++ ancestry stk es := by
  induction F generalizing stk es with
  | nil => rfl
  | cons a ch sib ihc ihs => simp [tour, paths, ancestry, ihc, ihs]

theorem ancestry_map_fst (stk : List α) (es : List (Event α)) :
    (ancestry stk es).map Prod.fst = entered es := by
  induction es generalizing stk with
  | nil => rfl
  | cons e es ih => cases e <;> simp [ancestry, entered, ih]

/-- A whole forest is balanced, so skipping passes over it. -/
theorem skip_tour (F : Forest α) (d : Nat) (es : List (Event α)) :
    skip (d + 1) (F.tour ++ es) = skip (d + 1) es := by
  induction F generalizing d es with
  | nil => rfl
  | cons a ch sib ihc ihs => simp [tour, skip, ihc, ihs]

/-! ## Where a node stands in the tour -/

/-- Around a node the tour enters it, tours its children and leaves it. -/
theorem tour_of_mem_subtrees {F ch : Forest α} {a : α} (h : (a, ch) ∈ F.subtrees) :
    ∃ pre post, F.tour = pre ++ .enter a :: (ch.tour ++ .leave :: post) := by
  induction F with
  | nil => simp [subtrees] at h
  | cons b c sib ihc ihs =>
    simp only [subtrees, List.mem_cons, Prod.mk.injEq, List.mem_append] at h
    rcases h with ⟨rfl, rfl⟩ | h | h
    · exact ⟨[], sib.tour, rfl⟩
    · obtain ⟨pre, post, hc⟩ := ihc h
      exact ⟨.enter b :: pre, post ++ .leave :: sib.tour, by simp [tour, hc]⟩
    · obtain ⟨pre, post, hs⟩ := ihs h
      exact ⟨.enter b :: (c.tour ++ .leave :: pre), post, by simp [tour, hs]⟩

end Forest
