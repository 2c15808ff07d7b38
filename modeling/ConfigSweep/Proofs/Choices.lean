import ConfigSweep.Proofs.Placement
import ConfigSweep.Proofs.Split

/-!
# Choices of values for axes

Choices for the axes of a tree come apart into choices for its children, by the first steps of the
paths. Cutting paths by steps and cutting tokens by texts are the same, since the tokens of a
node's children differ.
-/

namespace ConfigSweep

/-- Values for axes by the paths that lead to the axes, in the order in which they are given. -/
abbrev Choices := List (Path × Tree)

namespace Choices

/-- The value chosen for the axis at a path. -/
def at? (path : Path) : Choices → Option Tree
  | [] => none
  | c :: rest => if c.1 = path then some c.2 else at? path rest

/-- The choices below a step. -/
def under (step : Step) (cs : Choices) : Choices :=
  cs.filterMap fun c =>
    match c.1 with
    | [] => none
    | first :: rest => if first = step then some (rest, c.2) else none

def placements (cs : Choices) : Placements :=
  cs.map fun c => (c.1.map Step.token, c.2)

/-- The keys of the node that lead to choices, in order of use. -/
def leads (cs : Choices) : List String :=
  cs.placements.firsts

/-- The choices are for different axes of a tree. -/
structure Into (t : Tree) (cs : Choices) : Prop where
  axes : ∀ c ∈ cs, ∃ declaration, (c.1, declaration) ∈ t.axisLocations
  different : (cs.map Prod.fst).Nodup

theorem under_cons (step first : Step) (rest : Path) (value : Tree) (cs : Choices) :
    under step ((first :: rest, value) :: cs)
      = if first = step then (rest, value) :: under step cs else under step cs := by
  unfold under
  rw [List.filterMap_cons]
  by_cases same : first = step <;> simp [same]

theorem mem_under {step : Step} {path : Path} {value : Tree} {cs : Choices} :
    (path, value) ∈ under step cs ↔ (step :: path, value) ∈ cs := by
  unfold under
  rw [List.mem_filterMap]
  constructor
  · rintro ⟨⟨steps, v⟩, member, found⟩
    cases steps with
    | nil => simp at found
    | cons first rest =>
      dsimp only at found
      split at found
      · next same =>
        obtain ⟨rfl, rfl⟩ := Prod.mk.inj (Option.some.inj found)
        exact same ▸ member
      · cases found
  · exact fun member => ⟨(step :: path, value), member, by simp⟩

theorem at?_under (step : Step) (path : Path) (cs : Choices) :
    (under step cs).at? path = cs.at? (step :: path) := by
  induction cs with
  | nil => rfl
  | cons c rest ih =>
    obtain ⟨steps, value⟩ := c
    cases steps with
    | nil =>
      rw [at?, if_neg (by simp)]
      exact ih
    | cons first more =>
      rw [under_cons, at?]
      by_cases same : first = step
      · rw [if_pos same, at?, ih]
        simp [same]
      · rw [if_neg same, ih, if_neg fun whole => same (List.cons.inj whole).1]

theorem at?_eq_some_iff {cs : Choices} (different : (cs.map Prod.fst).Nodup) {path : Path}
    {value : Tree} : cs.at? path = some value ↔ (path, value) ∈ cs := by
  induction cs with
  | nil => simp [at?]
  | cons c rest ih =>
    obtain ⟨first, v⟩ := c
    rw [List.map_cons, List.nodup_cons] at different
    rw [at?, List.mem_cons, Prod.mk.injEq]
    by_cases here : first = path
    · have absent : (path, value) ∉ rest := fun member =>
        different.1 (List.mem_map.mpr ⟨(path, value), member, here.symm⟩)
      simp [here, absent, eq_comm]
    · simp [here, Ne.symm here, ih different.2]

variable {t : Tree} {cs : Choices}

theorem Into.filled (into : cs.Into t) : ∀ c ∈ cs, c.1 ≠ [] := by
  intro c member
  obtain ⟨declaration, inside⟩ := into.axes c member
  exact Tree.ne_nil_of_mem_axisLocations inside

theorem Into.placements_filled (into : cs.Into t) : ∀ p ∈ cs.placements, p.1 ≠ [] := by
  intro p member
  obtain ⟨c, inside, rfl⟩ := List.mem_map.mp member
  simpa using into.filled c inside

/-- A choice starts with the step to a child, and is for the child or an axis inside it. -/
theorem Into.starts (into : cs.Into t) {path : Path} {value : Tree} (member : (path, value) ∈ cs) :
    ∃ c ∈ t.children, (path = [c.1] ∧ c.2.isAxis = true) ∨
      (c.2.isAxis = false ∧ ∃ rest declaration, path = c.1 :: rest ∧
        (rest, declaration) ∈ c.2.axisLocations) := by
  obtain ⟨declaration, inside⟩ := into.axes _ member
  obtain ⟨c, child, ⟨rfl, axis⟩ | ⟨plain, rest, rfl, below⟩⟩ := Tree.mem_axisLocations_iff.mp inside
  · exact ⟨c, child, .inl ⟨rfl, by simp [Tree.isAxis, axis]⟩⟩
  · exact ⟨c, child, .inr ⟨by simp [Tree.isAxis, plain], rest, declaration, rfl, below⟩⟩

theorem under_paths (step : Step) (cs : Choices) :
    ((under step cs).map Prod.fst).map (step :: ·) = (cs.map Prod.fst).filter
      fun path => path.head? = some step := by
  induction cs with
  | nil => rfl
  | cons c rest ih =>
    obtain ⟨steps, value⟩ := c
    cases steps with
    | nil => simpa [under] using ih
    | cons first more =>
      rw [under_cons]
      by_cases same : first = step
      · simp [same, ih]
      · simp [same, ih]

theorem under_nodup (different : (cs.map Prod.fst).Nodup) (step : Step) :
    ((under step cs).map Prod.fst).Nodup := by
  have whole := different.filter fun path => path.head? = some step
  rw [← under_paths] at whole
  exact whole.of_map _

/-- The choices below a child that is no axis are choices for that child. -/
theorem Into.under (into : cs.Into t) {c : Step × Tree} (distinct : t.Distinct)
    (child : c ∈ t.children) (plain : c.2.isAxis = false) : (Choices.under c.1 cs).Into c.2 where
  axes := by
    rintro ⟨path, value⟩ member
    obtain ⟨d, other, ⟨onward, axis⟩ | ⟨-, rest, declaration, onward, inside⟩⟩ :=
      into.starts (mem_under.mp member)
    all_goals
      obtain ⟨step, rfl⟩ := List.cons.inj onward
      have same : c.2 = d.2 := by
        have first := (Tree.mem_children distinct).mp child
        have second := (Tree.mem_children distinct).mp other
        rw [step, second] at first
        exact (Option.some.inj first).symm
    · rw [same, axis] at plain
      cases plain
    · exact ⟨declaration, same ▸ inside⟩
  different := under_nodup into.different c.1

/-- All that is chosen below an axis is its own value. -/
theorem Into.under_axis (into : cs.Into t) {c : Step × Tree} (distinct : t.Distinct)
    (child : c ∈ t.children) (axis : c.2.isAxis = true) :
    Choices.under c.1 cs = (cs.at? [c.1]).toList.map fun value => ([], value) := by
  have own : ∀ path value, (path, value) ∈ Choices.under c.1 cs → path = [] := by
    intro path value member
    obtain ⟨d, other, ⟨onward, -⟩ | ⟨plain, rest, declaration, onward, -⟩⟩ :=
      into.starts (mem_under.mp member)
    · exact (List.cons.inj onward).2
    · have first := (Tree.mem_children distinct).mp child
      have second := (Tree.mem_children distinct).mp other
      rw [(List.cons.inj onward).1, second] at first
      rw [Option.some.inj first, axis] at plain
      cases plain
  have once := under_nodup into.different c.1
  rw [← at?_under]
  cases below : Choices.under c.1 cs with
  | nil => rfl
  | cons first rest =>
    obtain ⟨path, value⟩ := first
    rw [below] at own once
    obtain rfl := own path value List.mem_cons_self
    have last : rest = [] := by
      refine List.eq_nil_iff_forall_not_mem.mpr fun other member => ?_
      have empty := own other.1 other.2 (List.mem_cons_of_mem _ member)
      rw [List.map_cons, List.nodup_cons] at once
      exact once.1 (List.mem_map.mpr ⟨other, member, empty⟩)
    simp [last, at?]

/-- Cutting choices by steps is cutting their placements by tokens. -/
theorem Into.behind (into : cs.Into t) {c : Step × Tree} (child : c ∈ t.children) :
    cs.placements.behind c.1.token = (Choices.under c.1 cs).placements := by
  have steps : ∀ d ∈ cs, ∀ first rest, d.1 = first :: rest →
      (first.token = c.1.token ↔ first = c.1) := by
    rintro ⟨path, value⟩ member first rest rfl
    obtain ⟨d, other, starts⟩ := into.starts member
    have here : first = d.1 := by
      rcases starts with ⟨onward, -⟩ | ⟨-, _, _, onward, -⟩ <;> exact (List.cons.inj onward).1
    exact ⟨fun same => here.trans (Tree.token_inj_of_children other child (here ▸ same)),
      fun same => congrArg Step.token same⟩
  clear into
  induction cs with
  | nil => rfl
  | cons d rest ih =>
    obtain ⟨path, value⟩ := d
    rw [List.forall_mem_cons] at steps
    cases path with
    | nil => exact ih steps.2
    | cons first more =>
      have split := steps.1 first more rfl
      have shown : placements ((first :: more, value) :: rest)
          = (first.token :: more.map Step.token, value) :: placements rest := rfl
      rw [shown, Placements.behind_cons, under_cons, ih steps.2]
      by_cases same : first = c.1
      · rw [if_pos (split.mpr same), if_pos same]
        rfl
      · rw [if_neg fun tokens => same (split.mp tokens), if_neg same]

/-- Tokens that belong to no child lead to no choice. -/
theorem Into.mem_leads (into : cs.Into t) {key : String} (member : key ∈ cs.leads) :
    ∃ c ∈ t.children, c.1.token = key := by
  obtain ⟨p, inside, head⟩ := List.mem_filterMap.mp member
  obtain ⟨⟨path, value⟩, chosen, rfl⟩ := List.mem_map.mp inside
  obtain ⟨c, child, starts⟩ := into.starts chosen
  refine ⟨c, child, ?_⟩
  rcases starts with ⟨rfl, -⟩ | ⟨-, rest, declaration, rfl, -⟩
  · simpa using head
  · simpa using head

end Choices

end ConfigSweep
