import ConfigSweep.Failure
import Mathlib.Data.List.Forall2

/-!
# Steps that may fail

How a success of a composed step comes apart into successes of its parts. Steps made for all items
of a list relate the items to what they yield.
-/

namespace ConfigSweep

theorem bind_eq_ok {ε α β : Type} {first : Except ε α} {next : α → Except ε β} {b : β} :
    (first >>= next) = .ok b ↔ ∃ a, first = .ok a ∧ next a = .ok b := by
  cases first with
  | error failure => simp [bind, Except.bind]
  | ok a => simp [bind, Except.bind]

theorem bind_eq_error {ε α β : Type} {first : Except ε α} {next : α → Except ε β} {e : ε} :
    (first >>= next) = .error e ↔ first = .error e ∨ ∃ a, first = .ok a ∧ next a = .error e := by
  cases first with
  | error failure => simp [bind, Except.bind]
  | ok a => simp [bind, Except.bind]

theorem map_eq_ok {ε α β : Type} {first : Except ε α} {f : α → β} {b : β} :
    f <$> first = .ok b ↔ ∃ a, first = .ok a ∧ f a = b := by
  cases first with
  | error failure => simp [Functor.map, Except.map]
  | ok a => simp [Functor.map, Except.map]

theorem map_eq_error {ε α β : Type} {first : Except ε α} {f : α → β} {e : ε} :
    f <$> first = .error e ↔ first = .error e := by
  cases first with
  | error failure => simp [Functor.map, Except.map]
  | ok a => simp [Functor.map, Except.map]

theorem bind_pure_eq_error {ε α β : Type} {first : Except ε α} {f : α → β} {e : ε} :
    (first >>= fun a => pure (f a)) = .error e ↔ first = .error e := by
  rw [← map_eq_pure_bind]
  exact map_eq_error

/-- Locating a failure does not change its cause. -/
theorem Failure.cause_locate (f : Failure) (path : String) (patch : Tree) :
    (f.locate path patch).cause = f.cause := by
  unfold locate
  split <;> rfl

theorem Stopped.outcome_eq_ok {σ α : Type} {stops : Except (Stopped σ) α} {a : α} :
    outcome stops = .ok a ↔ stops = .ok a := by
  cases stops with
  | error stopped => simp [outcome]
  | ok b => simp [outcome]

/-- A step made for all items of a list succeeds when it does for each of them. -/
theorem mapM_eq_ok {ε α β : Type} {f : α → Except ε β} {as : List α} {bs : List β} :
    as.mapM f = .ok bs ↔ List.Forall₂ (fun a b => f a = .ok b) as bs := by
  induction as generalizing bs with
  | nil => simp [pure, Except.pure, eq_comm]
  | cons a rest ih =>
    rw [List.mapM_cons, List.forall₂_cons_left_iff]
    constructor
    · intro done
      obtain ⟨b, first, done⟩ := bind_eq_ok.mp done
      obtain ⟨more, later, done⟩ := bind_eq_ok.mp done
      obtain rfl := Except.ok.inj done
      exact ⟨b, more, first, ih.mp later, rfl⟩
    · rintro ⟨b, more, first, later, rfl⟩
      exact bind_eq_ok.mpr ⟨b, first, bind_eq_ok.mpr ⟨more, ih.mpr later, rfl⟩⟩

/-- When a step made for all items of a list fails, it fails so for one of them. -/
theorem mapM_eq_error {ε α β : Type} {f : α → Except ε β} {as : List α} {e : ε}
    (failed : as.mapM f = .error e) : ∃ a ∈ as, f a = .error e := by
  induction as with
  | nil => cases failed
  | cons a rest ih =>
    rw [List.mapM_cons] at failed
    cases first : f a with
    | error own =>
      rw [first] at failed
      obtain rfl := Except.error.inj failed
      exact ⟨a, List.mem_cons_self, first⟩
    | ok b =>
      rw [first] at failed
      cases later : rest.mapM f with
      | error own =>
        rw [later] at failed
        obtain rfl := Except.error.inj failed
        obtain ⟨other, member, fails⟩ := ih later
        exact ⟨other, List.mem_cons_of_mem _ member, fails⟩
      | ok bs =>
        rw [later] at failed
        cases failed

/-- A step made for all items of a list fails as it does for the first item that it fails for. -/
theorem mapM_eq_error_of_first {ε α β : Type} {f : α → Except ε β} {before after : List α} {a : α}
    {e : ε} (done : ∀ b ∈ before, ∃ c, f b = .ok c) (failed : f a = .error e) :
    (before ++ a :: after).mapM f = .error e := by
  induction before with
  | nil =>
    rw [List.nil_append, List.mapM_cons]
    exact bind_eq_error.mpr (.inl failed)
  | cons b rest ih =>
    rw [List.forall_mem_cons] at done
    obtain ⟨c, first⟩ := done.1
    rw [List.cons_append, List.mapM_cons]
    exact bind_eq_error.mpr (.inr ⟨c, first, bind_eq_error.mpr (.inl (ih done.2))⟩)

/-- A run of steps fails where one step does after those before it succeeded. -/
theorem foldlM_eq_error {ε α β : Type} {f : β → α → Except ε β} {as : List α} {start : β} {e : ε} :
    as.foldlM f start = .error e ↔ ∃ before a after b, as = before ++ a :: after ∧
      before.foldlM f start = .ok b ∧ f b a = .error e := by
  induction as generalizing start with
  | nil =>
    constructor
    · rintro ⟨⟩
    · rintro ⟨before, a, after, b, whole, -⟩
      cases before <;> cases whole
  | cons first rest ih =>
    rw [List.foldlM_cons, bind_eq_error]
    constructor
    · rintro (failed | ⟨b, done, failed⟩)
      · exact ⟨[], first, rest, start, rfl, rfl, failed⟩
      · obtain ⟨before, a, after, c, rfl, reached, fails⟩ := ih.mp failed
        refine ⟨first :: before, a, after, c, rfl, ?_, fails⟩
        rw [List.foldlM_cons, done]
        exact reached
    · rintro ⟨before, a, after, c, whole, reached, fails⟩
      cases before with
      | nil =>
        obtain ⟨rfl, rfl⟩ := List.cons.inj whole
        exact .inl (Except.ok.inj reached ▸ fails)
      | cons second before =>
        obtain ⟨rfl, rfl⟩ := List.cons.inj whole
        rw [List.foldlM_cons] at reached
        obtain ⟨b, done, reached⟩ := bind_eq_ok.mp reached
        exact .inr ⟨b, done, ih.mpr ⟨before, a, after, c, rfl, reached, fails⟩⟩

/-- What every step of a successful run keeps is kept by the run. -/
theorem foldlM_keeps {ε α β : Type} {f : β → α → Except ε β} {as : List α} {start b : β}
    {invariant : β → Prop}
    (keeps : ∀ a ∈ as, ∀ b c, invariant b → f b a = .ok c → invariant c) (holds : invariant start)
    (done : as.foldlM f start = .ok b) : invariant b := by
  induction as generalizing start with
  | nil => exact Except.ok.inj done ▸ holds
  | cons a rest ih =>
    rw [List.forall_mem_cons] at keeps
    obtain ⟨c, first, later⟩ := bind_eq_ok.mp done
    exact ih keeps.2 (keeps.1 start c holds first) later

/-- A list cut at one of its items, when the items are given with their places. -/
theorem zipIdx_eq_append_cons {α : Type} {as : List α} {place : Nat} {placed later : List (α × Nat)}
    {item : α × Nat} (whole : as.zipIdx place = placed ++ item :: later) :
    ∃ before a after, as = before ++ a :: after ∧ placed = before.zipIdx place ∧
      item = (a, place + before.length) := by
  obtain ⟨before, rest, rfl, rfl, others⟩ := List.zipIdx_eq_append_iff.mp whole
  obtain ⟨a, after, rfl, rfl, -⟩ := List.zipIdx_eq_cons_iff.mp others.symm
  exact ⟨before, a, after, rfl, rfl, rfl⟩

/-- A run of steps that are given their places fails where one step does. -/
theorem foldlM_zipIdx_eq_error {ε α β : Type} {f : β → α × Nat → Except ε β} {as : List α}
    {place : Nat} {start : β} {e : ε} :
    (as.zipIdx place).foldlM f start = .error e ↔ ∃ before a after b, as = before ++ a :: after ∧
      (before.zipIdx place).foldlM f start = .ok b ∧ f b (a, place + before.length) = .error e := by
  rw [foldlM_eq_error]
  constructor
  · rintro ⟨placed, item, later, b, whole, reached, fails⟩
    obtain ⟨before, a, after, rfl, rfl, rfl⟩ := zipIdx_eq_append_cons whole
    exact ⟨before, a, after, b, rfl, reached, fails⟩
  · rintro ⟨before, a, after, b, rfl, reached, fails⟩
    exact ⟨_, _, _, b, by rw [List.zipIdx_append, List.zipIdx_cons], reached, fails⟩

section Related

variable {α β : Type} {relation : α → β → Prop} {as : List α} {bs : List β}

theorem exists_left (related : List.Forall₂ relation as bs) : ∀ b ∈ bs, ∃ a ∈ as, relation a b := by
  induction related with
  | nil => simp
  | cons first rest ih =>
    intro b member
    rcases List.mem_cons.mp member with rfl | later
    · exact ⟨_, List.mem_cons_self, first⟩
    · obtain ⟨a, inside, here⟩ := ih b later
      exact ⟨a, List.mem_cons_of_mem _ inside, here⟩

theorem exists_right (related : List.Forall₂ relation as bs) : ∀ a ∈ as, ∃ b ∈ bs, relation a b :=
  exists_left related.flip

theorem exists_forall₂ (each : ∀ a ∈ as, ∃ b, relation a b) : ∃ bs, List.Forall₂ relation as bs := by
  induction as with
  | nil => exact ⟨[], .nil⟩
  | cons a rest ih =>
    rw [List.forall_mem_cons] at each
    obtain ⟨b, first⟩ := each.1
    obtain ⟨bs, later⟩ := ih each.2
    exact ⟨b :: bs, .cons first later⟩

theorem forall₂_of_map_eq {γ : Type} {f : α → γ} {g : β → γ} (same : as.map f = bs.map g) :
    List.Forall₂ (fun a b => f a = g b) as bs := by
  rwa [← List.forall₂_eq_eq_eq, List.forall₂_map_left_iff, List.forall₂_map_right_iff] at same

theorem map_eq_of_forall₂ {γ : Type} {f : α → γ} {g : β → γ}
    (same : List.Forall₂ (fun a b => f a = g b) as bs) : as.map f = bs.map g := by
  rwa [← List.forall₂_eq_eq_eq, List.forall₂_map_left_iff, List.forall₂_map_right_iff]

/-- Lists made of the items of one list. -/
theorem forall₂_map_map {α' β' : Type} {relation' : α' → β' → Prop} {f : α → α'} {g : α → β'} :
    List.Forall₂ relation' (as.map f) (as.map g) ↔ ∀ a ∈ as, relation' (f a) (g a) := by
  rw [List.forall₂_map_left_iff, List.forall₂_map_right_iff, List.forall₂_same]

theorem forall₂_filter {p : α → Bool} {q : β → Bool} (related : List.Forall₂ relation as bs)
    (alike : ∀ a b, relation a b → p a = q b) :
    List.Forall₂ relation (as.filter p) (bs.filter q) :=
  List.rel_filter (fun a b here => by simp [alike a b here]) related

theorem forall₂_filterMap {α' β' : Type} {relation' : α' → β' → Prop} {f : α → Option α'}
    {g : β → Option β'} (related : List.Forall₂ relation as bs)
    (alike : ∀ a b, relation a b → Option.Rel relation' (f a) (g b)) :
    List.Forall₂ relation' (as.filterMap f) (bs.filterMap g) :=
  List.rel_filterMap (fun a b here => alike a b here) related

theorem forall₂_getElem? (related : List.Forall₂ relation as bs) (i : Nat) :
    Option.Rel relation as[i]? bs[i]? := by
  induction related generalizing i with
  | nil => exact .none
  | cons first rest ih =>
    cases i with
    | zero => exact .some first
    | succ i => exact ih i

theorem forall₂_set (related : List.Forall₂ relation as bs) (i : Nat) {a : α} {b : β}
    (values : relation a b) : List.Forall₂ relation (as.set i a) (bs.set i b) := by
  induction related generalizing i with
  | nil => exact .nil
  | cons first rest ih =>
    cases i with
    | zero => exact .cons values rest
    | succ i => exact .cons first (ih i)

theorem forall₂_getLast? (related : List.Forall₂ relation as bs) :
    Option.Rel relation as.getLast? bs.getLast? := by
  have reversed := List.forall₂_reverse_iff.mpr related
  rw [List.getLast?_eq_head?_reverse, List.getLast?_eq_head?_reverse]
  generalize as.reverse = xs at reversed ⊢
  generalize bs.reverse = ys at reversed ⊢
  cases reversed with
  | nil => exact .none
  | cons first rest => exact .some first

theorem forall₂_dropLast (related : List.Forall₂ relation as bs) :
    List.Forall₂ relation as.dropLast bs.dropLast := by
  rw [List.dropLast_eq_take, List.dropLast_eq_take, related.length_eq]
  exact List.forall₂_take _ related

/-- Sorting by what related items agree on keeps lists related. -/
theorem forall₂_mergeSort {le : α → α → Bool} {le' : β → β → Bool}
    (related : List.Forall₂ relation as bs)
    (agree : ∀ a b c d, relation a c → relation b d → le a b = le' c d) :
    List.Forall₂ relation (as.mergeSort le) (bs.mergeSort le') := by
  have pairs : ∀ p ∈ as.zip bs, relation p.1 p.2 := fun p member => List.forall₂_zip related member
  have lengths := related.length_eq
  have left := List.map_mergeSort (l := as.zip bs) (r := fun p q => le p.1 q.1) (s := le) (f := Prod.fst)
    fun p _ q _ => rfl
  have right := List.map_mergeSort (l := as.zip bs) (r := fun p q => le p.1 q.1) (s := le')
    (f := Prod.snd) fun p first q second => agree _ _ _ _ (pairs p first) (pairs q second)
  rw [List.map_fst_zip (by omega)] at left
  rw [List.map_snd_zip (by omega)] at right
  rw [← left, ← right]
  exact forall₂_map_map.mpr fun p member => pairs p (List.mem_mergeSort.mp member)

/-- A relation of items passes to what related items yield. -/
theorem forall₂_square {α' β' : Type} {relation' : α' → β' → Prop} {down : α → α' → Prop}
    {down' : β → β' → Prop} {as' : List α'} {bs' : List β'} (related : List.Forall₂ relation as bs)
    (left : List.Forall₂ down as as') (right : List.Forall₂ down' bs bs')
    (square : ∀ a ∈ as, ∀ b a' b', relation a b → down a a' → down' b b' → relation' a' b') :
    List.Forall₂ relation' as' bs' := by
  induction related generalizing as' bs' with
  | nil =>
    cases left
    cases right
    exact .nil
  | @cons a b as bs first rest ih =>
    rw [List.forall_mem_cons] at square
    cases left with
    | cons downFirst downRest =>
      cases right with
      | cons downFirst' downRest' =>
        exact .cons (square.1 _ _ _ first downFirst downFirst') (ih downRest downRest' square.2)

end Related

/-- A step made for all items of a list fails where it does for one after those before it. -/
theorem mapM_eq_error_iff {ε α β : Type} {f : α → Except ε β} {as : List α} {e : ε} :
    as.mapM f = .error e ↔ ∃ before a after bs, as = before ++ a :: after ∧
      before.mapM f = .ok bs ∧ f a = .error e := by
  constructor
  · intro failed
    induction as with
    | nil => cases failed
    | cons a rest ih =>
      rw [List.mapM_cons] at failed
      rcases bind_eq_error.mp failed with here | ⟨b, first, failed⟩
      · exact ⟨[], a, rest, [], rfl, rfl, here⟩
      rcases bind_eq_error.mp failed with later | ⟨_, _, none'⟩
      · obtain ⟨before, c, after, bs, rfl, done, fails⟩ := ih later
        refine ⟨a :: before, c, after, b :: bs, rfl, ?_, fails⟩
        rw [List.mapM_cons, first, done]
        rfl
      · cases none'
  · rintro ⟨before, a, after, bs, rfl, done, fails⟩
    refine mapM_eq_error_of_first (fun b member => ?_) fails
    obtain ⟨c, -, yields⟩ := exists_right (mapM_eq_ok.mp done) b member
    exact ⟨c, yields⟩

/-- The same of a step that is given the places of the items. -/
theorem mapM_zipIdx_eq_error {ε α β : Type} {f : α × Nat → Except ε β} {as : List α} {place : Nat}
    {e : ε} :
    (as.zipIdx place).mapM f = .error e ↔ ∃ before a after bs, as = before ++ a :: after ∧
      (before.zipIdx place).mapM f = .ok bs ∧ f (a, place + before.length) = .error e := by
  rw [mapM_eq_error_iff]
  constructor
  · rintro ⟨placed, item, later, bs, whole, done, fails⟩
    obtain ⟨before, a, after, rfl, rfl, rfl⟩ := zipIdx_eq_append_cons whole
    exact ⟨before, a, after, bs, rfl, done, fails⟩
  · rintro ⟨before, a, after, bs, rfl, done, fails⟩
    exact ⟨_, _, _, bs, by rw [List.zipIdx_append, List.zipIdx_cons], done, fails⟩

end ConfigSweep
