import ConfigSweep.Proofs.Filling
import ConfigSweep.Proofs.Location
import ConfigSweep.Proofs.Path

/-!
# Filled trees along paths

A tree that was filled up is the union of its base and of what was added, as seen from every path.
Leaves of the base stay, and hide what would be added below them. All else that was added is there,
and nothing besides. Filling up again changes nothing. It fails exactly when the two sides have
containers of different kinds, or a list too long, at one path.
-/

namespace ConfigSweep

/-- The trail of a walk that goes on along a path. -/
def Trail.along (trail : Trail) (path : Path) : Trail :=
  ⟨trail.labels ++ path.map Step.label⟩

theorem Trail.along_nil (trail : Trail) : trail.along [] = trail := by
  simp [Trail.along]

theorem Trail.along_cons (trail : Trail) (step : Step) (rest : Path) :
    trail.along (step :: rest) = (trail.child step.label).along rest := by
  simp [Trail.along, Trail.child]

namespace Tree

/-- The base asks for a container of its own kind, no longer than itself if it is a list, and the
tree to be added is none. -/
inductive Misfits : Tree → Tree → Prop where
  | mapping (entries : Mapping Tree) {added : Tree} (other : added.shape ≠ .mapping) :
      Misfits (.mapping entries) added
  | list (items : List Tree) {added : Tree} (other : added.shape ≠ .list) :
      Misfits (.list items) added
  | length {items more : List Tree} (longer : items.length < more.length) :
      Misfits (.list items) (.list more)

/-- The path leads on below a leaf of the tree. -/
def BelowLeaf (t : Tree) (path : Path) : Prop :=
  ∃ front step back leaf, path = front ++ step :: back ∧ t.get? front = some leaf ∧
    leaf.isLeaf = true

/-- The tree has what both sides have. -/
structure UnionOf (base added filled : Tree) : Prop where
  leaves : ∀ path leaf, base.get? path = some leaf → leaf.isLeaf = true →
    filled.get? path = some leaf
  /-- What was added is there unless it is below a leaf, and as it was where the base has nothing. -/
  reached : ∀ path a, added.get? path = some a → ¬ base.BelowLeaf path →
    ∃ t, filled.get? path = some t ∧ (base.get? path = none → t = a)
  kept : ∀ path b, base.get? path = some b → ∃ t, filled.get? path = some t ∧ t.shape = b.shape
  nothingElse : ∀ path t, filled.get? path = some t →
    (∃ b, base.get? path = some b) ∨ ∃ a, added.get? path = some a

section OneStep

/-- What base and tree to be added have at one place, and what comes of it. -/
inductive Joins (trail : Trail) : Option Tree → Option Tree → Option Tree → Prop where
  | nothing : Joins trail none none none
  | kept (b : Tree) : Joins trail (some b) none (some b)
  | new (a : Tree) : Joins trail none (some a) (some a)
  | both {a b t : Tree} (done : addAt a b trail = .ok t) : Joins trail (some b) (some a) (some t)

variable {trail : Trail}

theorem Joins.of_base (b : Option Tree) : Joins trail b none b := by
  cases b with
  | none => exact .nothing
  | some b => exact .kept b

theorem Joins.of_added (a : Option Tree) : Joins trail none a a := by
  cases a with
  | none => exact .nothing
  | some a => exact .new a

theorem Joins.eq_added {a t : Option Tree} (joined : Joins trail none a t) : t = a := by
  cases joined <;> rfl

/-- What the base has stays as it is or is filled up. -/
theorem Joins.kept_or_filled {b : Tree} {a t : Option Tree} (joined : Joins trail (some b) a t) :
    a = none ∧ t = some b ∨
      ∃ more filled, a = some more ∧ t = some filled ∧ addAt more b trail = .ok filled := by
  cases joined with
  | kept => exact .inl ⟨rfl, rfl⟩
  | both done => exact .inr ⟨_, _, rfl, rfl, done⟩

/-- What both sides have is filled up. -/
theorem Joins.filled {a b : Tree} {t : Option Tree} (joined : Joins trail (some b) (some a) t) :
    ∃ filled, t = some filled ∧ addAt a b trail = .ok filled := by
  cases joined with
  | both done => exact ⟨_, rfl, done⟩

theorem addEntries_joins {added base filled : Mapping Tree} (unique : (Mapping.keys added).Nodup)
    (done : addEntries added base trail = .ok filled) (key : String) :
    Joins (trail.child key) (base.get? key) (added.get? key) (filled.get? key) := by
  induction added generalizing base with
  | nil =>
    obtain rfl := Except.ok.inj done
    exact .of_base _
  | cons e rest ih =>
    obtain ⟨first, value⟩ := e
    rw [Mapping.keys_cons, List.nodup_cons] at unique
    have absent := Mapping.get?_eq_none_iff.mpr unique.1
    -- under the first key the rest changes nothing, elsewhere the first write is not seen
    have through : ∀ {t : Tree}, addEntries rest (base.insert first t) trail = .ok filled →
        (key = first → filled.get? key = some t) ∧ (key ≠ first →
          Joins (trail.child key) (base.get? key) (Mapping.get? key rest) (filled.get? key)) := by
      intro t done
      have later := ih unique.2 done
      rw [Mapping.get?_insert] at later
      refine ⟨?_, fun away => by rwa [if_neg away] at later⟩
      rintro rfl
      rw [if_pos rfl, absent] at later
      exact (later.kept_or_filled.resolve_right fun ⟨_, _, absent, _⟩ => nomatch absent).2
    rw [addEntries] at done
    rw [Mapping.get?_cons]
    by_cases here : key = first
    · subst here
      rw [if_pos rfl]
      cases known : base.get? key with
      | none =>
        rw [known] at done
        rw [(through done).1 rfl]
        exact .new value
      | some existing =>
        rw [known] at done
        dsimp only at done
        split at done
        · cases done
        · next merged joined =>
          rw [(through done).1 rfl]
          exact .both joined
    · rw [if_neg (Ne.symm here)]
      split at done
      · exact (through done).2 here
      · split at done
        · cases done
        · exact (through done).2 here

theorem addEntries_error {added base : Mapping Tree} {stopped : Stopped (Mapping Tree)}
    (unique : (Mapping.keys added).Nodup) (failed : addEntries added base trail = .error stopped) :
    ∃ key a b, ∃ inner : Stopped Tree, added.get? key = some a ∧ base.get? key = some b ∧
      addAt a b (trail.child key) = .error inner ∧ inner.failure = stopped.failure := by
  induction added generalizing base with
  | nil => cases failed
  | cons e rest ih =>
    obtain ⟨first, value⟩ := e
    rw [Mapping.keys_cons, List.nodup_cons] at unique
    have through : ∀ {t : Tree}, addEntries rest (base.insert first t) trail = .error stopped →
        ∃ key a b, ∃ inner : Stopped Tree, Mapping.get? key ((first, value) :: rest) = some a ∧
          base.get? key = some b ∧ addAt a b (trail.child key) = .error inner ∧
          inner.failure = stopped.failure := by
      intro t failed
      obtain ⟨key, a, b, inner, toAdd, there, fails⟩ := ih unique.2 failed
      have away : key ≠ first := fun same => unique.1 (same ▸ Mapping.mem_keys_of_get? toAdd)
      rw [Mapping.get?_insert, if_neg away] at there
      refine ⟨key, a, b, inner, ?_, there, fails⟩
      rw [Mapping.get?_cons, if_neg (Ne.symm away), toAdd]
    rw [addEntries] at failed
    split at failed
    · exact through failed
    · next existing known =>
      split at failed
      · next inner fails =>
        obtain rfl := Except.error.inj failed
        exact ⟨first, value, existing, inner, by rw [Mapping.get?_cons, if_pos rfl], known, fails, rfl⟩
      · exact through failed

theorem addItems_joins {added base filled : List Tree} {position : Nat}
    (short : added.length ≤ base.length)
    (done : addItems added base position trail = .ok filled) (i : Nat) :
    Joins (trail.child (toString (position + i))) base[i]? added[i]? filled[i]? := by
  induction added generalizing base filled position i with
  | nil =>
    rw [addItems.eq_def] at done
    obtain rfl := Except.ok.inj done
    exact .of_base _
  | cons a rest ih =>
    cases base with
    | nil => cases short
    | cons b more =>
      rw [addItems] at done
      split at done
      · cases done
      · next merged joined =>
        cases later : addItems rest more (position + 1) trail with
        | error stopped => rw [later] at done; cases done
        | ok filledRest =>
          rw [later] at done
          obtain rfl := Except.ok.inj done
          cases i with
          | zero => exact .both joined
          | succ i =>
            have below := ih (Nat.le_of_succ_le_succ short) later i
            rwa [Nat.add_right_comm, Nat.add_assoc] at below

theorem addItems_error {added base : List Tree} {position : Nat} {stopped : Stopped (List Tree)}
    (failed : addItems added base position trail = .error stopped) :
    ∃ i a b, ∃ inner : Stopped Tree, added[i]? = some a ∧ base[i]? = some b ∧
      addAt a b (trail.child (toString (position + i))) = .error inner ∧
      inner.failure = stopped.failure := by
  induction added generalizing base stopped position with
  | nil =>
    rw [addItems.eq_def] at failed
    cases failed
  | cons a rest ih =>
    cases base with
    | nil =>
      rw [addItems.eq_def] at failed
      cases failed
    | cons b more =>
      rw [addItems] at failed
      split at failed
      · next inner fails =>
        obtain rfl := Except.error.inj failed
        exact ⟨0, a, b, inner, rfl, rfl, fails, rfl⟩
      · cases later : addItems rest more (position + 1) trail with
        | ok filled => rw [later] at failed; cases failed
        | error own =>
          rw [later] at failed
          obtain rfl := Except.error.inj failed
          obtain ⟨i, c, d, inner, toAdd, there, fails, same⟩ := ih later
          refine ⟨i + 1, c, d, inner, toAdd, there, ?_, same⟩
          rwa [Nat.add_right_comm, Nat.add_assoc] at fails

variable {added base filled : Tree}

theorem addAt_leaf (leaf : base.isLeaf = true) : addAt added base trail = .ok base := by
  cases base with
  | list items => cases leaf
  | mapping entries => cases leaf
  | _ => cases added <;> rfl

/-- A container that was filled up is of the same kind, and filled up below every step. -/
structure FilledAt (base added filled : Tree) (trail : Trail) : Prop where
  fits : ¬ Misfits base added
  shape : filled.shape = base.shape
  below : ∀ step, Joins (trail.child step.label) (base.child? step) (added.child? step)
    (filled.child? step)

theorem filledAt_of_addAt (distinct : added.Distinct) (container : base.isLeaf = false)
    (done : addAt added base trail = .ok filled) : FilledAt base added filled trail := by
  cases base with
  | mapping entries =>
    cases added with
    | mapping more =>
      rw [addAt] at done
      cases inner : addEntries more entries trail with
      | error stopped => rw [inner] at done; cases done
      | ok result =>
        rw [inner] at done
        obtain rfl := Except.ok.inj done
        refine ⟨fun misfit => ?_, rfl, fun step => ?_⟩
        · cases misfit with
          | mapping _ other => exact other rfl
        · cases step with
          | key name => exact addEntries_joins distinct.1 inner name
          | index position => exact .nothing
    | _ => cases done
  | list items =>
    cases added with
    | list more =>
      rw [addAt] at done
      split at done
      · cases done
      · next short =>
        cases inner : addItems more items 0 trail with
        | error stopped => rw [inner] at done; cases done
        | ok result =>
          rw [inner] at done
          obtain rfl := Except.ok.inj done
          refine ⟨fun misfit => ?_, rfl, fun step => ?_⟩
          · cases misfit with
            | list _ other => exact other rfl
            | length longer => exact short longer
          · cases step with
            | key name => exact .nothing
            | index position =>
              have joined := addItems_joins (Nat.le_of_not_lt short) inner position
              rwa [Nat.zero_add] at joined
    | _ => cases done
  | _ => cases container

/-- A failure comes from a misfit here or from a failure below one step. -/
theorem addAt_error {stopped : Stopped Tree} (distinct : added.Distinct)
    (failed : addAt added base trail = .error stopped) :
    (Misfits base added ∧ ∃ problem, stopped.failure = ⟨.remainderMismatch trail problem, none⟩) ∨
      ∃ step a b, ∃ inner : Stopped Tree, added.child? step = some a ∧ base.child? step = some b ∧
        addAt a b (trail.child step.label) = .error inner ∧ inner.failure = stopped.failure := by
  cases base with
  | mapping entries =>
    cases added with
    | mapping more =>
      rw [addAt] at failed
      cases inner : addEntries more entries trail with
      | ok result => rw [inner] at failed; cases failed
      | error own =>
        rw [inner] at failed
        obtain rfl := Except.error.inj failed
        obtain ⟨key, a, b, below, found⟩ := addEntries_error distinct.1 inner
        exact .inr ⟨.key key, a, b, below, found⟩
    | _ =>
      obtain rfl := Except.error.inj failed
      exact .inl ⟨.mapping entries (by simp [shape]), _, rfl⟩
  | list items =>
    cases added with
    | list more =>
      rw [addAt] at failed
      split at failed
      · next longer =>
        obtain rfl := Except.error.inj failed
        exact .inl ⟨.length longer, _, rfl⟩
      · cases inner : addItems more items 0 trail with
        | ok result => rw [inner] at failed; cases failed
        | error own =>
          rw [inner] at failed
          obtain rfl := Except.error.inj failed
          obtain ⟨i, a, b, below, found⟩ := addItems_error inner
          rw [Nat.zero_add] at found
          exact .inr ⟨.index i, a, b, below, found⟩
    | _ =>
      obtain rfl := Except.error.inj failed
      exact .inl ⟨.list items (by simp [shape]), _, rfl⟩
  | _ => cases added <;> cases failed

end OneStep

section AlongPaths

theorem not_belowLeaf_cons {t : Tree} {step : Step} {rest : Path}
    (clear : ¬ t.BelowLeaf (step :: rest)) :
    t.isLeaf = false ∧ ∀ c, t.child? step = some c → ¬ c.BelowLeaf rest := by
  constructor
  · by_contra leaf
    rw [Bool.not_eq_false] at leaf
    exact clear ⟨[], step, rest, t, rfl, rfl, leaf⟩
  · rintro c there ⟨front, next, back, leaf, rfl, found, isLeaf⟩
    refine clear ⟨step :: front, next, back, leaf, rfl, ?_, isLeaf⟩
    rw [get?, there]
    exact found

/-- A leaf hides what would be below it, so that what a path reaches is below no leaf. -/
theorem not_belowLeaf_of_get? {t found : Tree} {path : Path} (there : t.get? path = some found) :
    ¬ t.BelowLeaf path := by
  rintro ⟨front, step, back, leaf, rfl, atFront, isLeaf⟩
  induction front generalizing t with
  | nil =>
    obtain rfl := Option.some.inj atFront
    rw [List.nil_append, get?, child?_leaf isLeaf] at there
    cases there
  | cons first front ih =>
    obtain ⟨c, toChild, below⟩ := Option.bind_eq_some_iff.mp there
    obtain ⟨d, toChild', atFront⟩ := Option.bind_eq_some_iff.mp atFront
    obtain rfl := Option.some.inj (toChild.symm.trans toChild')
    exact ih below atFront

variable {added base filled : Tree} {trail : Trail}

/-- What one place holds comes about as what every place further down holds. -/
theorem Joins.along {path : Path} {b a t : Option Tree} (joined : Joins trail b a t)
    (distinct : ∀ added, a = some added → added.Distinct)
    (clear : ∀ base, b = some base → ¬ base.BelowLeaf path) :
    Joins (trail.along path) (b.bind (get? path)) (a.bind (get? path)) (t.bind (get? path)) := by
  induction path generalizing trail b a t with
  | nil =>
    rw [Trail.along_nil]
    simpa [get?] using joined
  | cons step rest ih =>
    cases joined with
    | nothing => exact .nothing
    | kept b => exact .of_base _
    | new a => exact .of_added _
    | @both a b t done =>
      obtain ⟨container, below⟩ := not_belowLeaf_cons (clear b rfl)
      have unique := distinct a rfl
      have inner : ∀ added, a.child? step = some added → added.Distinct := fun c there =>
        distinct_child unique _ ((mem_children unique).mpr there)
      rw [Trail.along_cons]
      exact ih ((filledAt_of_addAt unique container done).below step) inner below

/-- As seen along any path that is not below a leaf of the base, a tree is filled up place by
place. -/
theorem addAt_along (distinct : added.Distinct) (done : addAt added base trail = .ok filled)
    {path : Path} (clear : ¬ base.BelowLeaf path) :
    Joins (trail.along path) (base.get? path) (added.get? path) (filled.get? path) := by
  have joined : Joins trail (some base) (some added) (some filled) := .both done
  exact joined.along (fun _ same => Option.some.inj same ▸ distinct)
    fun _ same => Option.some.inj same ▸ clear

theorem shape_of_addAt (distinct : added.Distinct) (done : addAt added base trail = .ok filled) :
    filled.shape = base.shape := by
  cases leaf : base.isLeaf with
  | true =>
    rw [addAt_leaf leaf] at done
    rw [Except.ok.inj done]
  | false => exact (filledAt_of_addAt distinct leaf done).shape

theorem distinct_of_get? {t found : Tree} (distinct : t.Distinct) {path : Path}
    (there : t.get? path = some found) : found.Distinct := by
  induction path generalizing t with
  | nil => exact Option.some.inj there ▸ distinct
  | cons step rest ih =>
    obtain ⟨c, toChild, below⟩ := Option.bind_eq_some_iff.mp there
    exact ih (distinct_child distinct _ ((mem_children distinct).mpr toChild)) below

theorem not_misfits_of_addAt (distinct : added.Distinct) (done : addAt added base trail = .ok filled) :
    ¬ Misfits base added := by
  cases leaf : base.isLeaf with
  | true =>
    intro misfit
    cases misfit <;> cases leaf
  | false => exact (filledAt_of_addAt distinct leaf done).fits

/-- A leaf of the base is left as it is. -/
theorem leaf_of_addAt (distinct : added.Distinct) (done : addAt added base trail = .ok filled)
    {path : Path} {leaf : Tree} (there : base.get? path = some leaf) (isLeaf : leaf.isLeaf = true) :
    filled.get? path = some leaf := by
  have joined := addAt_along distinct done (not_belowLeaf_of_get? there)
  rw [there] at joined
  rcases joined.kept_or_filled with ⟨-, same⟩ | ⟨more, same, -, there, inner⟩
  · exact same
  · rw [addAt_leaf isLeaf] at inner
    rw [there, ← Except.ok.inj inner]

/-- Nothing is added below a leaf of the base. -/
theorem not_belowLeaf_of_addAt (distinct : added.Distinct)
    (done : addAt added base trail = .ok filled) {path : Path} {t : Tree}
    (there : filled.get? path = some t) : ¬ base.BelowLeaf path := by
  rintro ⟨front, step, back, leaf, rfl, atFront, isLeaf⟩
  have still := leaf_of_addAt distinct done atFront isLeaf
  exact not_belowLeaf_of_get? there ⟨front, step, back, leaf, rfl, still, isLeaf⟩

theorem unionOf_of_addAt (distinct : added.Distinct) (done : addAt added base trail = .ok filled) :
    UnionOf base added filled where
  leaves path leaf there isLeaf := leaf_of_addAt distinct done there isLeaf
  reached path a there clear := by
    have joined := addAt_along distinct done clear
    rw [there] at joined
    cases inBase : base.get? path with
    | none =>
      rw [inBase] at joined
      exact ⟨a, joined.eq_added, fun _ => rfl⟩
    | some b =>
      rw [inBase] at joined
      obtain ⟨t, filled, -⟩ := joined.filled
      exact ⟨t, filled, nofun⟩
  kept path b there := by
    have joined := addAt_along distinct done (not_belowLeaf_of_get? there)
    rw [there] at joined
    rcases joined.kept_or_filled with ⟨-, same⟩ | ⟨more, t, toAdd, filled, inner⟩
    · exact ⟨b, same, rfl⟩
    · exact ⟨t, filled, shape_of_addAt (distinct_of_get? distinct toAdd) inner⟩
  nothingElse path t there := by
    have joined := addAt_along distinct done (not_belowLeaf_of_addAt distinct done there)
    cases inBase : base.get? path with
    | some b => exact .inl ⟨b, rfl⟩
    | none =>
      rw [inBase] at joined
      exact .inr ⟨t, joined.eq_added ▸ there⟩

/-- A failure names the path to a misfit. -/
theorem misfits_of_addAt {stopped : Stopped Tree} (distinct : added.Distinct)
    (failed : addAt added base trail = .error stopped) :
    ∃ path b a problem, base.get? path = some b ∧ added.get? path = some a ∧ Misfits b a ∧
      stopped.failure = ⟨.remainderMismatch (trail.along path) problem, none⟩ := by
  induction added using children_induction generalizing base trail stopped with
  | node added ih =>
    rcases addAt_error distinct failed with ⟨misfit, problem, cause⟩ | ⟨step, a, b, inner, toAdd,
      there, fails, same⟩
    · exact ⟨[], base, added, problem, rfl, rfl, misfit, by rw [Trail.along_nil, cause]⟩
    · have child := (mem_children distinct).mpr toAdd
      obtain ⟨path, d, c, problem, atBase, atAdded, misfit, cause⟩ :=
        ih _ child (distinct_child distinct _ child) fails
      refine ⟨step :: path, d, c, problem, ?_, ?_, misfit, ?_⟩
      · rw [get?, there]
        exact atBase
      · rw [get?, toAdd]
        exact atAdded
      · rw [Trail.along_cons, ← cause, same]

end AlongPaths

section Again

/-- Adding the tree changes nothing. -/
def Absorbs (t added : Tree) : Prop :=
  ∀ trail, addAt added t trail = .ok t

theorem absorbs_entries {added base : Mapping Tree} {trail : Trail}
    (each : ∀ e ∈ added, ∃ t, base.get? e.1 = some t ∧ t.Absorbs e.2) :
    addEntries added base trail = .ok base := by
  induction added with
  | nil => rfl
  | cons e rest ih =>
    rw [List.forall_mem_cons] at each
    obtain ⟨⟨t, there, absorbed⟩, later⟩ := each
    rw [addEntries, there]
    dsimp only
    rw [absorbed]
    dsimp only
    rw [Mapping.insert_of_get? there, ih later]

theorem absorbs_items {added base : List Tree} {position : Nat} {trail : Trail}
    (each : ∀ (i : Nat) (a : Tree), added[i]? = some a → ∃ t, base[i]? = some t ∧ Absorbs t a) :
    addItems added base position trail = .ok base := by
  induction added generalizing base position with
  | nil => rw [addItems.eq_def]
  | cons a rest ih =>
    obtain ⟨t, there, absorbed⟩ := each 0 a rfl
    cases base with
    | nil => cases there
    | cons first more =>
      obtain rfl := Option.some.inj there
      rw [addItems, absorbed]
      dsimp only
      rw [ih fun i b toAdd => each (i + 1) b toAdd]
      rfl

/-- A container absorbs one of its kind when it absorbs what is below every step. -/
theorem absorbs_of_below {t added : Tree} (distinct : added.Distinct) (fits : ¬ Misfits t added)
    (below : ∀ step a, added.child? step = some a → ∃ c, t.child? step = some c ∧ c.Absorbs a) :
    t.Absorbs added := by
  intro trail
  cases t with
  | mapping base =>
    cases added with
    | mapping more =>
      rw [addAt, absorbs_entries fun e member =>
        below (.key e.1) e.2 (Mapping.get?_of_mem distinct.1 member)]
      rfl
    | _ => exact absurd (.mapping base (by simp [shape])) fits
  | list items =>
    cases added with
    | list more =>
      have short : ¬ items.length < more.length := fun longer => fits (.length longer)
      rw [addAt, if_neg short, absorbs_items fun i a there => below (.index i) a there]
      rfl
    | _ => exact absurd (.list items (by simp [shape])) fits
  | _ => exact addAt_leaf rfl

/-- What was filled up has room for what filled it up. -/
theorem FilledAt.fits_again {added base filled : Tree} {trail : Trail}
    (filledAt : FilledAt base added filled trail) : ¬ Misfits filled added := by
  obtain ⟨fits, sameShape, below⟩ := filledAt
  intro misfit
  cases misfit with
  | mapping _ other =>
    cases base with
    | mapping base => exact fits (.mapping base other)
    | _ => cases sameShape
  | list _ other =>
    cases base with
    | list base => exact fits (.list base other)
    | _ => cases sameShape
  | @length items more longer =>
    -- the first position behind the filled list has an item to be added
    have joined := below (.index items.length)
    obtain ⟨a, toAdd⟩ : ∃ a, more[items.length]? = some a := ⟨_, List.getElem?_eq_getElem longer⟩
    rw [child?, child?, toAdd, List.getElem?_eq_none (Nat.le_refl _)] at joined
    generalize base.child? (.index items.length) = b at joined
    cases joined

theorem not_misfits_self (t : Tree) : ¬ Misfits t t := by
  intro misfit
  cases misfit with
  | mapping _ other => exact other rfl
  | list _ other => exact other rfl
  | length longer => exact Nat.lt_irrefl _ longer

theorem absorbs_self {t : Tree} (distinct : t.Distinct) : t.Absorbs t := by
  induction t using children_induction with
  | node t ih =>
    refine absorbs_of_below distinct (not_misfits_self t) fun step c there => ⟨c, there, ?_⟩
    have child := (mem_children distinct).mpr there
    exact ih _ child (distinct_child distinct _ child)

/-- A tree that was filled up absorbs what filled it up. -/
theorem absorbs_of_addAt {added base filled : Tree} {trail : Trail} (distinct : added.Distinct)
    (done : addAt added base trail = .ok filled) : filled.Absorbs added := by
  induction added using children_induction generalizing base filled trail with
  | node added ih =>
    cases leaf : base.isLeaf with
    | true =>
      rw [addAt_leaf leaf] at done
      exact fun _ => addAt_leaf (Except.ok.inj done ▸ leaf)
    | false =>
      have filledAt := filledAt_of_addAt distinct leaf done
      refine absorbs_of_below distinct filledAt.fits_again fun step a toAdd => ?_
      have child := (mem_children distinct).mpr toAdd
      have joined := filledAt.below step
      rw [toAdd] at joined
      cases inBase : base.child? step with
      | none =>
        rw [inBase] at joined
        exact ⟨a, joined.eq_added, absorbs_self (distinct_child distinct _ child)⟩
      | some b =>
        rw [inBase] at joined
        obtain ⟨t, there, inner⟩ := joined.filled
        exact ⟨t, there, ih _ child (distinct_child distinct _ child) inner⟩

end Again

/-- Filling up is a union in which the base wins. A success has what both sides have: the leaves of
the base, and from the tree that was added all that is not below one of them. Adding the tree again
changes nothing. It fails exactly when some path leads to a misfit, and the failure names one. -/
theorem withDefaults_union (base : Tree) {added : Tree} (distinct : added.Distinct) :
    (∀ filled, base.withDefaults added = .ok filled →
      UnionOf base added filled ∧ filled.withDefaults added = .ok filled) ∧
    ((∃ stopped, base.withDefaults added = .error stopped) ↔
      ∃ path b a, base.get? path = some b ∧ added.get? path = some a ∧ Misfits b a) ∧
    ∀ stopped, base.withDefaults added = .error stopped →
      ∃ path b a problem, base.get? path = some b ∧ added.get? path = some a ∧ Misfits b a ∧
        stopped.failure = ⟨.remainderMismatch (Trail.root.along path) problem, none⟩ := by
  refine ⟨fun filled done => ?_, ⟨?_, ?_⟩, fun stopped failed => misfits_of_addAt distinct failed⟩
  · exact ⟨unionOf_of_addAt distinct done, absorbs_of_addAt distinct done .root⟩
  · rintro ⟨stopped, failed⟩
    obtain ⟨path, b, a, -, inBase, inAdded, misfit, -⟩ := misfits_of_addAt distinct failed
    exact ⟨path, b, a, inBase, inAdded, misfit⟩
  · rintro ⟨path, b, a, inBase, inAdded, misfit⟩
    cases outcome : base.withDefaults added with
    | error stopped => exact ⟨stopped, rfl⟩
    | ok filled =>
      have joined := addAt_along distinct outcome (not_belowLeaf_of_get? inBase)
      rw [inBase, inAdded] at joined
      obtain ⟨t, -, inner⟩ := joined.filled
      exact absurd misfit (not_misfits_of_addAt (distinct_of_get? distinct inAdded) inner)

section Mixed

/-- A leaf, a list with a mapping in it and a mapping. -/
def mixedBase : Tree :=
  .mapping [("k", .str "set"), ("xs", .list [.int 1, .mapping [("a", .int 1)]]),
    ("m", .mapping [("deep", .null)])]

/-- Fills up the mapping in the list, runs below the leaf and has a key of its own. -/
def mixedDefaults : Tree :=
  .mapping [("new", .list []), ("k", .mapping [("below", .int 3)]),
    ("xs", .list [.int 9, .mapping [("b", .int 2), ("a", .int 0)]])]

theorem withDefaults_union_mixed : mixedDefaults.Distinct ∧
    (∀ filled, mixedBase.withDefaults mixedDefaults = .ok filled →
      UnionOf mixedBase mixedDefaults filled ∧ filled.withDefaults mixedDefaults = .ok filled) ∧
    ((∃ stopped, mixedBase.withDefaults mixedDefaults = .error stopped) ↔
      ∃ path b a, mixedBase.get? path = some b ∧ mixedDefaults.get? path = some a ∧ Misfits b a) ∧
    ∀ stopped, mixedBase.withDefaults mixedDefaults = .error stopped →
      ∃ path b a problem, mixedBase.get? path = some b ∧ mixedDefaults.get? path = some a ∧
        Misfits b a ∧
        stopped.failure = ⟨.remainderMismatch (Trail.root.along path) problem, none⟩ := by
  have distinct : mixedDefaults.Distinct := by decide
  exact ⟨distinct, withDefaults_union mixedBase distinct⟩

-- the leaf hides what would be below it
example : mixedBase.withDefaults mixedDefaults = .ok (.mapping [("k", .str "set"),
    ("xs", .list [.int 1, .mapping [("a", .int 1), ("b", .int 2)]]),
    ("m", .mapping [("deep", .null)]), ("new", .list [])]) := by
  rfl

end Mixed

end Tree

end ConfigSweep
