import ConfigSweep.Patch.Classify
import ConfigSweep.Proofs.Mapping
import ConfigSweep.Proofs.SparseList

/-!
# How mappings are recognized

The keys of a mapping decide how it is read. Each way of reading it comes with what its keys then
are, and they are so for no other way.
-/

namespace ConfigSweep.Patch

variable {entries : Mapping Tree}

/-- What the keys of a mapping are that is read in some way. -/
inductive ReadingOf (entries : Mapping Tree) : Reading → Prop where
  | call {payload : Tree} (asks : Mapping.get? Keyword.eval entries = some payload)
      (alone : entries.length = 1) : ReadingOf entries (.call payload)
  | crowdedCall (asks : Keyword.eval ∈ Mapping.keys entries) (crowd : entries.length ≠ 1) :
      ReadingOf entries .crowdedCall
  | axis (noCall : Keyword.eval ∉ Mapping.keys entries)
      (marked : Keyword.sweep ∈ Mapping.keys entries) : ReadingOf entries .axis
  | script {operations : Tree} (noCall : Keyword.eval ∉ Mapping.keys entries)
      (noAxis : Keyword.sweep ∉ Mapping.keys entries)
      (given : Mapping.get? Keyword.operations entries = some operations) :
      ReadingOf entries (.script operations)
  | sparse (positional : Mapping.isPositional entries = true) : ReadingOf entries .sparse
  | keyed (noCall : Keyword.eval ∉ Mapping.keys entries)
      (noAxis : Keyword.sweep ∉ Mapping.keys entries)
      (noScript : Keyword.operations ∉ Mapping.keys entries)
      (plain : Mapping.isPositional entries = false) : ReadingOf entries .keyed

theorem readingOf_reading (entries : Mapping Tree) : ReadingOf entries (reading entries) := by
  unfold reading
  split
  · next payload asks =>
    split
    · next crowd => exact .crowdedCall (Mapping.mem_keys_of_get? asks) crowd
    · next alone => exact .call asks (by simpa using alone)
  · next noCall =>
    rw [Mapping.get?_eq_none_iff] at noCall
    split
    · next marked => exact .axis noCall (Mapping.has_iff.mp marked)
    · next noAxis =>
      rw [Mapping.has_iff] at noAxis
      split
      · next given => exact .script noCall noAxis given
      · next noScript =>
        rw [Mapping.get?_eq_none_iff] at noScript
        split
        · next positional => exact .sparse positional
        · next plain => exact .keyed noCall noAxis noScript (by simpa using plain)

/-- The keys tell how the mapping is read. -/
theorem reading_eq_iff {r : Reading} : reading entries = r ↔ ReadingOf entries r := by
  constructor
  · rintro rfl
    exact readingOf_reading entries
  · intro told
    unfold reading
    cases told with
    | call asks alone =>
      rw [asks, alone]
      rfl
    | crowdedCall asks crowd =>
      obtain ⟨payload, found⟩ := Mapping.exists_get?_of_mem_keys asks
      rw [found]
      exact if_pos crowd
    | axis noCall marked =>
      rw [Mapping.get?_eq_none_iff.mpr noCall, Mapping.has_iff.mpr marked]
      rfl
    | script noCall noAxis given =>
      rw [Mapping.get?_eq_none_iff.mpr noCall, Mapping.has_eq_false_iff.mpr noAxis, given]
      rfl
    | sparse positional =>
      have absent : ∀ key, Position.isToken key = false → key ∉ Mapping.keys entries := by
        intro key plain member
        rw [Mapping.isPositional_of_key member plain] at positional
        cases positional
      rw [Mapping.get?_eq_none_iff.mpr (absent Keyword.eval (by decide)),
        Mapping.has_eq_false_iff.mpr (absent Keyword.sweep (by decide)),
        Mapping.get?_eq_none_iff.mpr (absent Keyword.operations (by decide)), positional]
      rfl
    | keyed noCall noAxis noScript plain =>
      rw [Mapping.get?_eq_none_iff.mpr noCall, Mapping.has_eq_false_iff.mpr noAxis,
        Mapping.get?_eq_none_iff.mpr noScript, plain]
      rfl

/-- Without directives a mapping is read by its positions or by its keys. -/
theorem reading_of_absent (noCall : Keyword.eval ∉ Mapping.keys entries)
    (noAxis : Keyword.sweep ∉ Mapping.keys entries)
    (noScript : Keyword.operations ∉ Mapping.keys entries) :
    reading entries = if Mapping.isPositional entries then .sparse else .keyed := by
  cases positional : Mapping.isPositional entries with
  | true => exact reading_eq_iff.mpr (.sparse positional)
  | false => exact reading_eq_iff.mpr (.keyed noCall noAxis noScript positional)

/-- A list in disguise is read as patches at positions. -/
theorem reading_of_positional (positional : Mapping.isPositional entries = true) :
    reading entries = .sparse :=
  reading_eq_iff.mpr (.sparse positional)

/-- A script behind entries without directives makes them its payload. -/
theorem reading_append_script {operations : Tree}
    (absent : ∀ key ∈ [Keyword.eval, Keyword.sweep, Keyword.operations], key ∉ Mapping.keys entries) :
    reading (entries ++ [(Keyword.operations, operations)]) = .script operations ∧
      Mapping.remove Keyword.operations (entries ++ [(Keyword.operations, operations)]) = entries := by
  have noScript := absent Keyword.operations (by simp)
  have other : ∀ key ∈ [Keyword.eval, Keyword.sweep],
      key ∉ Mapping.keys (entries ++ [(Keyword.operations, operations)]) := by
    intro key reserved member
    rw [Mapping.keys_append, List.mem_append] at member
    rcases member with before | last
    · exact absent key (List.mem_append_left [Keyword.operations] reserved) before
    · obtain rfl : key = Keyword.operations := List.mem_singleton.mp last
      exact absurd reserved (by decide)
  constructor
  · refine reading_eq_iff.mpr (.script (other _ (by simp)) (other _ (by simp)) ?_)
    rw [Mapping.get?_append, Mapping.get?_eq_none_iff.mpr noScript]
    rfl
  · rw [Mapping.remove_append noScript, Mapping.remove, if_pos rfl]
    exact List.append_nil _

theorem get?_of_reading_call {payload : Tree} (call : reading entries = .call payload) :
    Mapping.get? Keyword.eval entries = some payload := by
  cases reading_eq_iff.mp call with
  | call asks alone => exact asks

theorem mem_of_reading_script {operations : Tree} (script : reading entries = .script operations) :
    (Keyword.operations, operations) ∈ entries := by
  cases reading_eq_iff.mp script with
  | script noCall noAxis given => exact Mapping.mem_of_get? given

theorem absent_of_reading_script {operations : Tree} (script : reading entries = .script operations) :
    ∀ key ∈ [Keyword.eval, Keyword.sweep], key ∉ Mapping.keys entries := by
  cases reading_eq_iff.mp script with
  | script noCall noAxis given => simp [noCall, noAxis]

theorem isPositional_of_reading_script {operations : Tree}
    (script : reading entries = .script operations) : Mapping.isPositional entries = false :=
  Mapping.isPositional_of_key (Mapping.mem_keys_of_mem (mem_of_reading_script script)) (by decide)

theorem isPositional_of_reading_sparse (sparse : reading entries = .sparse) :
    Mapping.isPositional entries = true := by
  cases reading_eq_iff.mp sparse with
  | sparse positional => exact positional

theorem isToken_of_reading_sparse (sparse : reading entries = .sparse) :
    ∀ e ∈ entries, Position.isToken e.1 = true :=
  List.all_eq_true.mp (Bool.and_eq_true _ _ ▸ isPositional_of_reading_sparse sparse).2

theorem absent_of_reading_keyed (keyed : reading entries = .keyed) :
    ∀ key ∈ [Keyword.eval, Keyword.sweep, Keyword.operations], key ∉ Mapping.keys entries := by
  cases reading_eq_iff.mp keyed with
  | keyed noCall noAxis noScript plain => simp [noCall, noAxis, noScript]

theorem isPositional_of_reading_keyed (keyed : reading entries = .keyed) :
    Mapping.isPositional entries = false := by
  cases reading_eq_iff.mp keyed with
  | keyed noCall noAxis noScript plain => exact plain

end ConfigSweep.Patch
