import RiscyOs.Lib.OrderedForest

/-!
# Outlines

An outline shows a forest with one line for each node, in preorder, indented once for every level.
Nothing marks the end of a node. Still an outline can be read back:

* `lines_unlines`: a text falls back into its lines.
* `unindent_indent`: a line gives back its label and its depth.
* `siblings_visits`: a list of visits gives back the forest.
* `readOutline_outline`: an outline gives back the forest it shows.
-/

namespace Outline

variable {α β : Type*}

/-! ## Lines -/

/-- End every line with `nl`. -/
def unlines (nl : α) (ls : List (List α)) : List α := ls.flatMap fun l => l ++ [nl]

/-- The lines that are ended by `nl`. -/
def lines [DecidableEq α] (nl : α) : List α → List (List α)
  | [] => []
  | c :: cs =>
    if c = nl then [] :: lines nl cs
    else match lines nl cs with
      | [] => []
      | l :: ls => (c :: l) :: ls

theorem unlines_append (nl : α) (ls ls' : List (List α)) :
    unlines nl (ls ++ ls') = unlines nl ls ++ unlines nl ls' := List.flatMap_append

theorem lines_append [DecidableEq α] {nl : α} {l rest : List α} (hl : nl ∉ l) :
    lines nl (l ++ nl :: rest) = l :: lines nl rest := by
  induction l with
  | nil => exact if_pos rfl
  | cons c cs ih =>
    rw [List.mem_cons, not_or] at hl
    rw [List.cons_append, lines, if_neg (Ne.symm hl.1), ih hl.2]

theorem lines_unlines [DecidableEq α] {nl : α} {ls : List (List α)} (h : ∀ l ∈ ls, nl ∉ l) :
    lines nl (unlines nl ls) = ls := by
  induction ls with
  | nil => rfl
  | cons l ls ih =>
    have htext : unlines nl (l :: ls) = l ++ nl :: unlines nl ls := by simp [unlines]
    rw [htext, lines_append (h l List.mem_cons_self),
      ih fun l' hl' => h l' (List.mem_cons_of_mem l hl')]

/-! ## Indentation -/

def indent (tab : α) (label : List α) (depth : Nat) : List α := List.replicate depth tab ++ label

/-- The label and the number of leading `tab`s. -/
def unindent [DecidableEq α] (tab : α) : List α → List α × Nat
  | [] => ([], 0)
  | c :: cs => if c = tab then ((unindent tab cs).1, (unindent tab cs).2 + 1) else (c :: cs, 0)

theorem unindent_indent [DecidableEq α] {tab : α} {label : List α} (h : label.head? ≠ some tab)
    (depth : Nat) : unindent tab (indent tab label depth) = (label, depth) := by
  induction depth with
  | zero =>
    cases label with
    | nil => rfl
    | cons c cs => exact if_neg fun hc => h (congrArg some hc)
  | succ depth ih =>
    have hcons : indent tab label (depth + 1) = tab :: indent tab label depth := rfl
    rw [hcons, unindent, if_pos rfl, ih]

/-! ## Visits -/

/-- The forest at depth `d` at the head of a list of visits. -/
def siblings : List (β × Nat) → Nat → Forest β
  | [], _ => .nil
  | (a, depth) :: rest, d =>
    if depth = d then .cons a (siblings rest (d + 1)) (siblings rest d)
    -- below `d`: part of a node that has been read
    else if d < depth then siblings rest d
    else .nil

/-- Visits that come after a forest at depth `d` do not belong to it. -/
def Closed (d : Nat) (rest : List (β × Nat)) : Prop := ∀ p ∈ rest.head?, p.2 < d

theorem siblings_closed {d : Nat} {rest : List (β × Nat)} (h : Closed d rest) :
    siblings rest d = .nil := by
  cases rest with
  | nil => rfl
  | cons p rest =>
    obtain ⟨a, depth⟩ := p
    have hlt : depth < d := h (a, depth) rfl
    rw [siblings, if_neg hlt.ne, if_neg hlt.not_gt]

/-- What stands deeper is passed over. -/
theorem siblings_skip (F : Forest β) {d e : Nat} (h : e < d) (rest : List (β × Nat)) :
    siblings (F.visits d ++ rest) e = siblings rest e := by
  induction F generalizing d rest with
  | nil => rfl
  | cons a ch sib ihc ihs =>
    rw [Forest.visits, List.cons_append, siblings, if_neg h.ne', if_pos h, List.append_assoc,
      ihc (h.trans (Nat.lt_succ_self d)), ihs h]

theorem closed_visits (F : Forest β) {d : Nat} {rest : List (β × Nat)} (h : Closed d rest) :
    Closed (d + 1) (F.visits d ++ rest) := by
  cases F with
  | nil => exact fun p hp => (h p hp).trans (Nat.lt_succ_self d)
  | cons a ch sib =>
    rintro p ⟨rfl⟩
    exact Nat.lt_succ_self d

theorem siblings_visits_append (F : Forest β) {d : Nat} {rest : List (β × Nat)}
    (h : Closed d rest) : siblings (F.visits d ++ rest) d = F := by
  induction F generalizing d rest with
  | nil => exact siblings_closed h
  | cons a ch sib ihc ihs =>
    have hch := ihc (closed_visits sib h)
    rw [Forest.visits, List.cons_append, siblings, if_pos rfl, List.append_assoc, hch,
      siblings_skip ch (Nat.lt_succ_self d), ihs h]

/-- **The visits give back the forest.** -/
theorem siblings_visits (F : Forest β) (d : Nat) : siblings (F.visits d) d = F := by
  have hclosed : Closed d ([] : List (β × Nat)) := fun p hp => by cases hp
  have hF := siblings_visits_append F hclosed
  rwa [List.append_nil] at hF

/-! ## Outlines -/

/-- The lines of the outline: one for each node, indented by its depth. -/
def outline (tab : α) (F : Forest (List α)) : List (List α) :=
  (F.visits 0).map fun p => indent tab p.1 p.2

def readOutline [DecidableEq α] (tab : α) (ls : List (List α)) : Forest (List α) :=
  siblings (ls.map (unindent tab)) 0

theorem mem_labels_of_mem_visits {F : Forest β} {p : β × Nat} {d : Nat} (h : p ∈ F.visits d) :
    p.1 ∈ F.labels := by
  induction F generalizing d with
  | nil => cases h
  | cons a ch sib ihc ihs =>
    rw [Forest.labels, List.mem_cons, List.mem_append]
    rcases List.mem_cons.1 h with rfl | h
    · exact .inl rfl
    · exact .inr ((List.mem_append.1 h).imp ihc ihs)

/-- A character of a line is a `tab` or stands in a label. -/
theorem notMem_outline {tab c : α} {F : Forest (List α)} (hne : c ≠ tab)
    (h : ∀ label ∈ F.labels, c ∉ label) : ∀ l ∈ outline tab F, c ∉ l := by
  intro l hl hmem
  obtain ⟨p, hp, rfl⟩ := List.mem_map.1 hl
  rcases List.mem_append.1 hmem with hmem | hmem
  · exact hne (List.eq_of_mem_replicate hmem)
  · exact h p.1 (mem_labels_of_mem_visits hp) hmem

/-- **An outline gives back the forest it shows**, if no label starts with a `tab`. -/
theorem readOutline_outline [DecidableEq α] {tab : α} {F : Forest (List α)}
    (h : ∀ label ∈ F.labels, label.head? ≠ some tab) : readOutline tab (outline tab F) = F := by
  have hread : (F.visits 0).map (unindent tab ∘ fun p => indent tab p.1 p.2) = F.visits 0 := by
    refine (List.map_congr_left fun p hp => ?_).trans (List.map_id _)
    exact unindent_indent (h p.1 (mem_labels_of_mem_visits hp)) p.2
  rw [readOutline, outline, List.map_map, hread, siblings_visits]

end Outline
