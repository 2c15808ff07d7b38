import ConfigSweep.Proofs.AxisKey
import ConfigSweep.Proofs.Outcome
import ConfigSweep.Proofs.Path
import ConfigSweep.Proofs.Placement

/-!
# What becomes of values at axis keys

A value placed where another key leads through, or below, may hide that key's value or be written
into. Values with different keys all stay exactly when each that lies below another one is a part of
that one already. Placing values fails exactly when one of them would lie below a leaf or a list that
is left where it was placed.
-/

namespace ConfigSweep

theorem AxisKey.tokens_ne_nil (key : AxisKey) : key.tokens ≠ [] := by
  simp [tokens, Text.pieces, Text.piecesFrom_ne_nil]

namespace Tree

/-- The tree that keys lead to from here. -/
def below? (tokens : List String) (t : Tree) : Option Tree :=
  t.get? (tokens.map .key)

theorem below?_append (front back : List String) (t : Tree) :
    t.below? (front ++ back) = (t.below? front).bind (below? back) := by
  rw [below?, List.map_append, get?_append]
  rfl

theorem below?_cons (token : String) (rest : List String) (t : Tree) :
    t.below? (token :: rest) = (t.child? (.key token)).bind (below? rest) := rfl

/-- Only a mapping has something below it. -/
theorem exists_mapping_of_below? {t found : Tree} {token : String} {rest : List String}
    (there : t.below? (token :: rest) = some found) : ∃ m, t = .mapping m := by
  cases t with
  | mapping m => exact ⟨m, rfl⟩
  | _ => cases there

/-- The tokens lead to a leaf or a list. -/
def BlockedAt (there : Option Tree) (tokens : List String) : Prop :=
  ∃ t, there.bind (below? tokens) = some t ∧ t.shape ≠ .mapping

end Tree

namespace Mapping

open ConfigSweep.Tree

/-- What a value is written into where tokens lead on: a mapping that is there or a new one. -/
def openedBelow : Option Tree → Option (Mapping Tree)
  | none => some []
  | some (.mapping m) => some m
  | some _ => none

theorem placeBelow_cons (value : Tree) (token : String) (rest : List String) (there : Option Tree) :
    placeBelow value (token :: rest) there
      = (openedBelow there).bind fun m =>
          (placeBelow value rest (m.get? token)).map fun t => .mapping (m.insert token t) := by
  cases there with
  | none =>
    rw [placeBelow, place?_cons, Option.map_map]
    rfl
  | some t =>
    cases t with
    | mapping m =>
      rw [placeBelow, place?_cons, Option.map_map]
      rfl
    | _ => rfl

theorem bind_below?_cons {there : Option Tree} {m : Mapping Tree} (opened : openedBelow there = some m)
    (token : String) (rest : List String) :
    there.bind (below? (token :: rest)) = (m.get? token).bind (below? rest) := by
  cases there with
  | none =>
    obtain rfl := Option.some.inj opened
    rfl
  | some t =>
    cases t with
    | mapping n =>
      obtain rfl := Option.some.inj opened
      rfl
    | _ => cases opened

section OnePlaced

variable {value t : Tree} {tokens : List String} {there : Option Tree}

/-- A value placed below tokens that lead on comes apart into one step and the rest. -/
theorem placeBelow_cons_eq_some {token : String} {rest : List String}
    (done : placeBelow value (token :: rest) there = some t) :
    ∃ m c, openedBelow there = some m ∧ placeBelow value rest (m.get? token) = some c ∧
      t = .mapping (m.insert token c) := by
  rw [placeBelow_cons] at done
  obtain ⟨m, opened, done⟩ := Option.bind_eq_some_iff.mp done
  obtain ⟨c, placed, rfl⟩ := Option.map_eq_some_iff.mp done
  exact ⟨m, c, opened, placed, rfl⟩

/-- The value and all that is in it are where the tokens lead. -/
theorem below?_placeBelow (done : placeBelow value tokens there = some t) (way : List String) :
    t.below? (tokens ++ way) = value.below? way := by
  induction tokens generalizing there t with
  | nil =>
    obtain rfl := Option.some.inj done
    rfl
  | cons token rest ih =>
    obtain ⟨m, c, -, placed, rfl⟩ := placeBelow_cons_eq_some done
    rw [List.cons_append, below?_cons, child?, get?_insert, if_pos rfl]
    exact ih placed

/-- On the way to the value there are mappings. -/
theorem mapping_above_placed {front : List String} {next : String} {back : List String}
    (done : placeBelow value (front ++ next :: back) there = some t) :
    ∃ m, t.below? front = some (.mapping m) := by
  induction front generalizing there t with
  | nil =>
    obtain ⟨m, c, -, -, rfl⟩ := placeBelow_cons_eq_some done
    exact ⟨_, rfl⟩
  | cons token front ih =>
    obtain ⟨m, c, -, placed, rfl⟩ := placeBelow_cons_eq_some done
    obtain ⟨n, found⟩ := ih placed
    refine ⟨n, ?_⟩
    rw [below?_cons, child?, get?_insert, if_pos rfl]
    exact found

/-- Elsewhere nothing changes. -/
theorem below?_apart_of_placed (done : placeBelow value tokens there = some t)
    {other : List String} (notBelow : ¬ tokens <+: other) (notAbove : ¬ other <+: tokens) :
    t.below? other = there.bind (below? other) := by
  induction tokens generalizing there t other with
  | nil => exact absurd List.nil_prefix notBelow
  | cons token rest ih =>
    obtain ⟨m, c, opened, placed, rfl⟩ := placeBelow_cons_eq_some done
    cases other with
    | nil => exact absurd List.nil_prefix notAbove
    | cons first more =>
      rw [bind_below?_cons opened, below?_cons, child?, get?_insert]
      by_cases same : first = token
      · subst same
        rw [if_pos rfl]
        exact ih placed (fun starts => notBelow (List.cons_prefix_cons.mpr ⟨rfl, starts⟩))
          fun starts => notAbove (List.cons_prefix_cons.mpr ⟨rfl, starts⟩)
      · rw [if_neg same]

/-- Writing what is there already changes nothing. -/
theorem placeBelow_self (found : there.bind (below? tokens) = some value) :
    placeBelow value tokens there = there := by
  induction tokens generalizing there with
  | nil =>
    obtain ⟨t, rfl, same⟩ := Option.bind_eq_some_iff.mp found
    exact same.symm
  | cons token rest ih =>
    obtain ⟨t, rfl, inside⟩ := Option.bind_eq_some_iff.mp found
    obtain ⟨m, rfl⟩ := exists_mapping_of_below? inside
    rw [below?_cons, child?] at inside
    obtain ⟨c, known, -⟩ := Option.bind_eq_some_iff.mp inside
    rw [placeBelow_cons, openedBelow, Option.bind_some, ih inside, known, Option.map_some,
      insert_of_get? known]

/-- A value cannot be placed exactly when a leaf or a list is on the way. -/
theorem placeBelow_eq_none_iff : placeBelow value tokens there = none ↔
    ∃ front next back, tokens = front ++ next :: back ∧ BlockedAt there front := by
  induction tokens generalizing there with
  | nil =>
    constructor
    · rintro ⟨⟩
    · rintro ⟨front, next, back, whole, -⟩
      cases front <;> cases whole
  | cons token rest ih =>
    rw [placeBelow_cons]
    cases opened : openedBelow there with
    | none =>
      refine iff_of_true rfl ⟨[], token, rest, rfl, ?_⟩
      cases there with
      | none => cases opened
      | some t =>
        cases t with
        | mapping m => cases opened
        | _ => exact ⟨_, rfl, nofun⟩
    | some m =>
      rw [Option.bind_some, Option.map_eq_none_iff, ih]
      constructor
      · rintro ⟨front, next, back, rfl, t, found, other⟩
        exact ⟨token :: front, next, back, rfl, t, by rw [bind_below?_cons opened, found], other⟩
      · rintro ⟨front, next, back, whole, t, found, other⟩
        cases front with
        | nil =>
          -- here is the mapping that was opened
          obtain ⟨u, rfl, same⟩ := Option.bind_eq_some_iff.mp found
          obtain rfl := Option.some.inj same
          cases u with
          | mapping n => exact absurd rfl other
          | _ => cases opened
        | cons first front =>
          obtain ⟨rfl, rfl⟩ := List.cons.inj whole
          rw [bind_below?_cons opened] at found
          exact ⟨front, next, back, rfl, t, found, other⟩

end OnePlaced

end Mapping

namespace Tree

/-- Places one value. -/
def placeOne (t : Tree) (e : AxisKey × Tree) : Outcome Tree :=
  match Mapping.placeBelow e.2 e.1.tokens (some t) with
  | some t => .ok t
  | none => fail (.malformedAxis e.1.dotted "flat key runs through a leaf value")

theorem placeOne_eq_ok {t u : Tree} {e : AxisKey × Tree} :
    placeOne t e = .ok u ↔ Mapping.placeBelow e.2 e.1.tokens (some t) = some u := by
  unfold placeOne
  cases Mapping.placeBelow e.2 e.1.tokens (some t) with
  | none => exact iff_of_false nofun nofun
  | some v => rw [Except.ok.injEq, Option.some.injEq]

theorem placeOne_eq_error {t : Tree} {e : AxisKey × Tree} {failure : Failure} :
    placeOne t e = .error failure ↔ Mapping.placeBelow e.2 e.1.tokens (some t) = none ∧
      failure = ⟨.malformedAxis e.1.dotted "flat key runs through a leaf value", none⟩ := by
  unfold placeOne
  cases Mapping.placeBelow e.2 e.1.tokens (some t) with
  | none =>
    rw [fail, Except.error.injEq]
    exact ⟨fun same => ⟨rfl, same.symm⟩, fun both => both.2.symm⟩
  | some v => exact iff_of_false nofun fun both => nomatch both.1

theorem placeAll_eq_foldlM (values : List (AxisKey × Tree)) (m : Mapping Tree) :
    placeAll values m = values.foldlM placeOne (.mapping m) := by
  induction values generalizing m with
  | nil => rfl
  | cons e rest ih =>
    obtain ⟨key, value⟩ := e
    obtain ⟨token, more, cut⟩ := List.exists_cons_of_ne_nil key.tokens_ne_nil
    rw [List.foldlM_cons, placeAll, placeOne, cut, Mapping.placeBelow]
    cases Mapping.place? value (token :: more) m with
    | none => rfl
    | some placed => exact ih placed

variable {values : List (AxisKey × Tree)} {e : AxisKey × Tree} {t : Tree}

theorem ofAxisValues_concat : ofAxisValues (values ++ [e]) = .ok t ↔
    ∃ before, ofAxisValues values = .ok before ∧
      Mapping.placeBelow e.2 e.1.tokens (some before) = some t := by
  rw [ofAxisValues, ofAxisValues, placeAll_eq_foldlM, placeAll_eq_foldlM, List.foldlM_append,
    bind_eq_ok]
  refine exists_congr fun before => and_congr_right fun _ => ?_
  rw [List.foldlM_cons, bind_eq_ok, ← placeOne_eq_ok]
  constructor
  · rintro ⟨u, done, last⟩
    exact Except.ok.inj last ▸ done
  · exact fun done => ⟨t, done, rfl⟩

theorem ofAxisValues_eq_error {failure : Failure} : ofAxisValues values = .error failure ↔
    ∃ before e after t, values = before ++ e :: after ∧ ofAxisValues before = .ok t ∧
      Mapping.placeBelow e.2 e.1.tokens (some t) = none ∧
      failure = ⟨.malformedAxis e.1.dotted "flat key runs through a leaf value", none⟩ := by
  simp only [ofAxisValues, placeAll_eq_foldlM, foldlM_eq_error, placeOne_eq_error]

/-- The last value at or above the place that the tokens lead to has the tree there. -/
def LastHas (values : List (AxisKey × Tree)) (tokens : List String) (t : Tree) : Prop :=
  ∃ before e after way, values = before ++ e :: after ∧ tokens = e.1.tokens ++ way ∧
    e.2.below? way = some t ∧ ∀ later ∈ after, ¬ later.1.tokens <+: tokens

/-- The key leads on below a leaf or a list that the values leave. -/
def Blocked (values : List (AxisKey × Tree)) (key : AxisKey) : Prop :=
  ∃ front next back t, key.tokens = front ++ next :: back ∧ LastHas values front t ∧
    t.shape ≠ .mapping

/-- No key is blocked by the values in front of it. -/
def Clear (values : List (AxisKey × Tree)) : Prop :=
  ∀ before e after, values = before ++ e :: after → ¬ Blocked before e.1

/-- A value below another one is a part of that one already. -/
def Agree (values : List (AxisKey × Tree)) : Prop :=
  ∀ d ∈ values, ∀ e ∈ values, ∀ next back, e.1.tokens = d.1.tokens ++ next :: back →
    d.2.below? (next :: back) = some e.2

theorem lastHas_concat {tokens : List String} {found : Tree} :
    LastHas (values ++ [e]) tokens found ↔
      (∃ way, tokens = e.1.tokens ++ way ∧ e.2.below? way = some found) ∨
        ¬ e.1.tokens <+: tokens ∧ LastHas values tokens found := by
  constructor
  · rintro ⟨before, d, after, way, whole, rfl, inside, last⟩
    rcases List.eq_nil_or_concat after with rfl | ⟨after, final, rfl⟩
    · obtain ⟨-, same⟩ := List.append_inj' whole rfl
      obtain rfl := List.singleton_inj.mp same
      exact .inl ⟨way, rfl, inside⟩
    · rw [List.concat_eq_append, ← List.cons_append, ← List.append_assoc] at whole
      obtain ⟨rfl, same⟩ := List.append_inj' whole rfl
      obtain rfl := List.singleton_inj.mp same
      refine .inr ⟨last e (by simp), before, d, after, way, rfl, rfl, inside, fun later member => ?_⟩
      exact last later (by simp [member])
  · rintro (⟨way, rfl, inside⟩ | ⟨away, before, d, after, way, rfl, rfl, inside, last⟩)
    · exact ⟨values, e, [], way, rfl, rfl, inside, by simp⟩
    · refine ⟨before, d, after ++ [e], way, by simp, rfl, inside, fun later member => ?_⟩
      rcases List.mem_append.mp member with earlier | final
      · exact last later earlier
      · exact List.mem_singleton.mp final ▸ away

/-- The leaves and lists that are left are those that the last values at or above them have. -/
theorem below?_ofAxisValues_iff (done : ofAxisValues values = .ok t) {tokens : List String}
    {found : Tree} (other : found.shape ≠ .mapping) :
    t.below? tokens = some found ↔ LastHas values tokens found := by
  induction values using List.reverseRecOn generalizing t with
  | nil =>
    obtain rfl := Except.ok.inj done
    refine iff_of_false (fun there => ?_) ?_
    · cases tokens with
      | nil => exact other (Option.some.inj there ▸ rfl)
      | cons token rest => cases there
    · rintro ⟨before, d, after, way, whole, -⟩
      cases before <;> cases whole
  | append_singleton values e ih =>
    obtain ⟨before, reached, placed⟩ := ofAxisValues_concat.mp done
    rw [lastHas_concat, ← ih reached]
    by_cases under : e.1.tokens <+: tokens
    · obtain ⟨way, rfl⟩ := under
      rw [Mapping.below?_placeBelow placed]
      constructor
      · exact fun inside => .inl ⟨way, rfl, inside⟩
      · rintro (⟨way', same, inside⟩ | ⟨away, -⟩)
        · exact List.append_cancel_left same ▸ inside
        · exact absurd (List.prefix_append _ _) away
    · have noWay : ¬ ∃ way, tokens = e.1.tokens ++ way ∧ e.2.below? way = some found := by
        rintro ⟨way, rfl, -⟩
        exact under (List.prefix_append _ _)
      rw [or_iff_right noWay, and_iff_right under]
      by_cases above : tokens <+: e.1.tokens
      · -- a mapping is there now, and neither a leaf nor a list was, or the value had no place
        obtain ⟨rest, whole⟩ := above
        cases rest with
        | nil => exact absurd ⟨[], by simpa using whole.symm⟩ under
        | cons next back =>
          rw [← whole] at placed
          obtain ⟨m, there⟩ := Mapping.mapping_above_placed placed
          refine iff_of_false (fun same => ?_) fun was => ?_
          · rw [there] at same
            exact other (Option.some.inj same ▸ rfl)
          · have blocked : BlockedAt (some before) tokens := ⟨found, was, other⟩
            rw [Mapping.placeBelow_eq_none_iff.mpr ⟨tokens, next, back, rfl, blocked⟩] at placed
            cases placed
      · rw [Mapping.below?_apart_of_placed placed under above]
        rfl

theorem placeBelow_eq_none_iff_blocked (done : ofAxisValues values = .ok t) {key : AxisKey}
    (value : Tree) : Mapping.placeBelow value key.tokens (some t) = none ↔ Blocked values key := by
  rw [Mapping.placeBelow_eq_none_iff]
  constructor
  · rintro ⟨front, next, back, whole, found, there, other⟩
    exact ⟨front, next, back, found, whole, (below?_ofAxisValues_iff done other).mp there, other⟩
  · rintro ⟨front, next, back, found, whole, last, other⟩
    exact ⟨front, next, back, whole, found, (below?_ofAxisValues_iff done other).mpr last, other⟩

/-- Values can all be placed when no key is blocked by those in front of it. -/
theorem ofAxisValues_ok_iff : (∃ t, ofAxisValues values = .ok t) ↔ Clear values := by
  constructor
  · rintro ⟨t, done⟩ before e after rfl blocked
    cases reached : ofAxisValues before with
    | ok u =>
      have stuck := (placeBelow_eq_none_iff_blocked reached e.2).mpr blocked
      cases done.symm.trans
        (ofAxisValues_eq_error.mpr ⟨before, e, after, u, rfl, reached, stuck, rfl⟩)
    | error failure =>
      -- what fails for the values in front fails for all of them
      obtain ⟨front, d, back, u, rfl, reached, stuck⟩ := ofAxisValues_eq_error.mp reached
      have whole : front ++ d :: back ++ e :: after = front ++ d :: (back ++ e :: after) := by simp
      cases done.symm.trans
        (ofAxisValues_eq_error.mpr ⟨front, d, _, u, whole, reached, stuck⟩)
  · intro clear
    cases outcome : ofAxisValues values with
    | ok t => exact ⟨t, rfl⟩
    | error failure =>
      obtain ⟨before, e, after, u, whole, reached, stuck, -⟩ := ofAxisValues_eq_error.mp outcome
      exact absurd ((placeBelow_eq_none_iff_blocked reached e.2).mp stuck)
        (clear before e after whole)

/-- The first key that is blocked is the one that is refused. -/
theorem ofAxisValues_error_iff {failure : Failure} : ofAxisValues values = .error failure ↔
    ∃ before e after, values = before ++ e :: after ∧ Clear before ∧ Blocked before e.1 ∧
      failure = ⟨.malformedAxis e.1.dotted "flat key runs through a leaf value", none⟩ := by
  rw [ofAxisValues_eq_error]
  constructor
  · rintro ⟨before, e, after, t, whole, reached, stuck, same⟩
    exact ⟨before, e, after, whole, ofAxisValues_ok_iff.mp ⟨t, reached⟩,
      (placeBelow_eq_none_iff_blocked reached e.2).mp stuck, same⟩
  · rintro ⟨before, e, after, whole, clear, blocked, same⟩
    obtain ⟨t, reached⟩ := ofAxisValues_ok_iff.mpr clear
    exact ⟨before, e, after, t, whole, reached,
      (placeBelow_eq_none_iff_blocked reached e.2).mpr blocked, same⟩

/-- Values that are all kept agree. -/
theorem agree_of_kept (kept : ∀ e ∈ values, t.below? e.1.tokens = some e.2) : Agree values := by
  intro d first e second next back under
  have whole := kept e second
  rw [under, below?_append, kept d first] at whole
  exact whole

/-- Where the values agree with the one to be placed, it is not blocked. -/
theorem not_blocked_of_agree (agree : Agree (values ++ [e])) : ¬ Blocked values e.1 := by
  rintro ⟨front, next, back, found, whole, ⟨before, d, after, way, rfl, rfl, inside, -⟩, other⟩
  have among : d ∈ before ++ d :: after ++ [e] := by simp
  have under : d.2.below? (way ++ next :: back) = some e.2 := by
    cases way with
    | nil => exact agree d among e (by simp) next back (by simpa using whole)
    | cons first way => exact agree d among e (by simp) first _ (by simpa using whole)
  rw [below?_append, inside] at under
  obtain ⟨m, rfl⟩ := exists_mapping_of_below? under
  exact other rfl

/-- Different values that agree are all kept. -/
theorem exists_kept_of_agree (different : (values.map Prod.fst).Nodup) (agree : Agree values) :
    ∃ t, ofAxisValues values = .ok t ∧ ∀ e ∈ values, t.below? e.1.tokens = some e.2 := by
  induction values using List.reverseRecOn with
  | nil => exact ⟨_, rfl, by simp⟩
  | append_singleton values e ih =>
    rw [List.map_append, List.nodup_append] at different
    obtain ⟨before, reached, kept⟩ := ih different.1 fun d first c second =>
      agree d (List.mem_append_left _ first) c (List.mem_append_left _ second)
    have free := (placeBelow_eq_none_iff_blocked reached e.2).not.mpr (not_blocked_of_agree agree)
    obtain ⟨t, placed⟩ := Option.ne_none_iff_exists'.mp free
    refine ⟨t, ofAxisValues_concat.mpr ⟨before, reached, placed⟩, fun d member => ?_⟩
    have last : e ∈ values ++ [e] := by simp
    rcases List.mem_append.mp member with earlier | here
    · have apart : d.1.tokens ≠ e.1.tokens := fun same =>
        different.2.2 _ (List.mem_map_of_mem earlier) e.1 (by simp) (AxisKey.tokens_inj same)
      by_cases under : e.1.tokens <+: d.1.tokens
      · obtain ⟨way, whole⟩ := under
        cases way with
        | nil => exact absurd (by simpa using whole.symm) apart
        | cons next back =>
          rw [← whole, Mapping.below?_placeBelow placed]
          exact agree e last d member next back whole.symm
      · by_cases above : d.1.tokens <+: e.1.tokens
        · obtain ⟨way, whole⟩ := above
          cases way with
          | nil => exact absurd (by simpa using whole) apart
          | cons next back =>
            -- the value is a part of the earlier one, so that nothing changes
            have part : (some before).bind (below? e.1.tokens) = some e.2 := by
              rw [Option.bind_some, ← whole, below?_append, kept d earlier]
              exact agree d member e last next back whole.symm
            obtain rfl := Option.some.inj (placed.symm.trans (Mapping.placeBelow_self part))
            exact kept d earlier
        · rw [Mapping.below?_apart_of_placed placed under above]
          exact kept d earlier
    · obtain rfl := List.mem_singleton.mp here
      have there := Mapping.below?_placeBelow placed []
      rwa [List.append_nil] at there

/-- Values with different keys are all kept, each unchanged where its tokens lead, exactly when a
value below another one is a part of that one already. They are refused exactly when a key is
blocked by a leaf or a list of the values in front of it, and the failure names the first such key.
In all other cases a value hides another one or is written into. -/
theorem ofAxisValues_keeps_iff (values : List (AxisKey × Tree))
    (different : (values.map Prod.fst).Nodup) :
    ((∃ t, ofAxisValues values = .ok t ∧ ∀ e ∈ values, t.below? e.1.tokens = some e.2) ↔
      Agree values) ∧
    ((∃ t, ofAxisValues values = .ok t) ↔ Clear values) ∧
    ∀ failure, ofAxisValues values = .error failure ↔
      ∃ before e after, values = before ++ e :: after ∧ Clear before ∧ Blocked before e.1 ∧
        failure = ⟨.malformedAxis e.1.dotted "flat key runs through a leaf value", none⟩ := by
  refine ⟨⟨?_, exists_kept_of_agree different⟩, ofAxisValues_ok_iff,
    fun failure => ofAxisValues_error_iff⟩
  rintro ⟨t, -, kept⟩
  exact agree_of_kept kept

section Meeting

/-- The last key leads on below the value of the first one, which is a mapping. -/
def meetingValues : List (AxisKey × Tree) :=
  [(⟨"a"⟩, .mapping [("x", .int 1)]), (⟨"c__SEP____IDX__0"⟩, .list []), (⟨"a__SEP__b"⟩, .int 2)]

theorem ofAxisValues_keeps_meeting : (meetingValues.map Prod.fst).Nodup ∧
    ((∃ t, ofAxisValues meetingValues = .ok t ∧
        ∀ e ∈ meetingValues, t.below? e.1.tokens = some e.2) ↔ Agree meetingValues) ∧
    ((∃ t, ofAxisValues meetingValues = .ok t) ↔ Clear meetingValues) ∧
    ∀ failure, ofAxisValues meetingValues = .error failure ↔
      ∃ before e after, meetingValues = before ++ e :: after ∧ Clear before ∧ Blocked before e.1 ∧
        failure = ⟨.malformedAxis e.1.dotted "flat key runs through a leaf value", none⟩ := by
  have different : (meetingValues.map Prod.fst).Nodup := by decide
  exact ⟨different, ofAxisValues_keeps_iff meetingValues different⟩

-- the first value is written into
example : ofAxisValues meetingValues = .ok (.mapping [
    ("a", .mapping [("x", .int 1), ("b", .int 2)]), ("c", .mapping [("__IDX__0", .list [])])]) := by
  with_unfolding_all rfl

end Meeting

end Tree

end ConfigSweep
